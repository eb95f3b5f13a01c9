import Pic18Boot.Verify.Records

/-! # The size and the digest of a file

What the tool adds up over the data records, in whatever order they stand (`Tally`), against the
flat image they describe (`Flat`): the two agree exactly for records in ascending order
(`tally_iff`), empty ones at the end apart. -/

namespace Pic18Boot

/-- What the loop over the file adds up. -/
structure Tally where
  next : Nat := 0
  size : Nat := 0
  hash : List UInt8 := []

def HostVars.tally (v : HostVars) : Tally := ⟨v.nextExpectAddr, v.fwSize, v.fwHash⟩

/-- A data record, with the gap before it filled. -/
def Tally.add (t : Tally) (r : Nat × List UInt8) : Tally where
  next := recEnd r
  size := t.size + r.2.length + if t.next < r.1 then r.1 - t.next else 0
  hash := (if t.next < r.1 then hashFill (r.1 - t.next) t.hash else t.hash) ++ r.2

/-- The highest end address of the records, `n` or more. -/
def endFrom (n : Nat) (recs : List (Nat × List UInt8)) : Nat :=
  recs.foldl (fun n r => max n (recEnd r)) n

/-- The highest end address of the records. -/
def highestEnd (recs : List (Nat × List UInt8)) : Nat := endFrom 0 recs

/-- The bytes are the image of the records: theirs at their addresses, 0xFF elsewhere. -/
structure Flat (recs : List (Nat × List UInt8)) (bytes : List UInt8) : Prop where
  length : bytes.length = highestEnd recs
  data : ∀ r ∈ recs, ∀ k b, r.2[k]? = some b → bytes[r.1 + k]? = some b
  fill : ∀ a < bytes.length, (∀ r ∈ recs, ¬ (r.1 ≤ a ∧ a < recEnd r)) → bytes[a]? = some 0xFF

/-- Empty records, none above the one before it. -/
inductive Trailing : Nat → List (Nat × List UInt8) → Prop
  | nil {n} : Trailing n []
  | cons {n addr recs} : addr ≤ n → Trailing addr recs → Trailing n ((addr, []) :: recs)

/-- Records in ascending order from `n` on; empty ones may follow in descending order. -/
inductive InOrder : Nat → List (Nat × List UInt8) → Prop
  | next {n r recs} : n ≤ r.1 → InOrder (recEnd r) recs → InOrder n (r :: recs)
  | trailing {n recs} : Trailing n recs → InOrder n recs

variable {recs recs' done : List (Nat × List UInt8)} {rec : Nat × List UInt8} {t : Tally}
  {bytes bytes' : List UInt8} {n : Nat}

theorem highestEnd_concat : highestEnd (done ++ [rec]) = max (highestEnd done) (recEnd rec) := by
  simp [highestEnd, endFrom]

/-! ## Ascending records -/

theorem Flat.nil : Flat [] [] := ⟨rfl, nofun, nofun⟩

/-- A record above all others extends the image. -/
theorem Flat.extend (H : Flat done bytes) (hle : highestEnd done ≤ rec.1) :
    Flat (done ++ [rec]) (extendImage bytes rec) := by
  have hbytes : bytes.length ≤ rec.1 := by
    rw [H.length]
    exact hle
  have hlen := length_extendImage hbytes
  have hend := recEnd_eq rec
  have hgap : (bytes ++ List.replicate (rec.1 - bytes.length) 0xFF).length = rec.1 := by
    rw [List.length_append, List.length_replicate]
    omega
  have hlow : ∀ a < rec.1, (extendImage bytes rec)[a]? =
      (bytes ++ List.replicate (rec.1 - bytes.length) 0xFF)[a]? := fun a ha =>
    List.getElem?_append_left (by rw [hgap]; exact ha)
  have hhigh : ∀ k, (extendImage bytes rec)[rec.1 + k]? = rec.2[k]? := by
    intro k
    rw [extendImage, List.getElem?_append_right (by omega), hgap, Nat.add_sub_cancel_left]
  constructor
  · rw [hlen, highestEnd_concat]
    omega
  · intro r hr k b hk
    rcases List.mem_append.mp hr with hr | hr
    · have hbyte := H.data r hr k b hk
      have hlt := (List.getElem?_eq_some_iff.mp hbyte).1
      rw [hlow _ (by omega), List.getElem?_append_left hlt]
      exact hbyte
    · obtain rfl := List.mem_singleton.mp hr
      rw [hhigh]
      exact hk
  · intro a ha hfree
    rw [hlen] at ha
    have hrec := hfree rec (by simp)
    rw [hlow a (by omega)]
    rcases Nat.lt_or_ge a bytes.length with hlt | hge
    · rw [List.getElem?_append_left hlt]
      exact H.fill a hlt fun r hr => hfree r (List.mem_append_left _ hr)
    · rw [List.getElem?_append_right hge, List.getElem?_replicate, if_pos (by omega)]

/-- An empty record inside the image does not concern it. -/
theorem Flat.empty {addr : Nat} (H : Flat done bytes) (hle : addr ≤ highestEnd done) :
    Flat (done ++ [(addr, [])]) bytes := by
  constructor
  · rw [H.length, highestEnd_concat]
    exact (Nat.max_eq_left hle).symm
  · intro r hr k b hk
    rcases List.mem_append.mp hr with hr | hr
    · exact H.data r hr k b hk
    · rw [List.mem_singleton.mp hr] at hk
      cases hk
  · intro a ha hfree
    exact H.fill a ha fun r hr => hfree r (List.mem_append_left _ hr)

theorem Tally.add_next (t : Tally) (rec : Nat × List UInt8) (h : t.next ≤ rec.1) :
    (t.add rec).size + t.next = t.size + recEnd rec ∧
    (t.add rec).hash = t.hash ++ List.replicate (rec.1 - t.next) 0xFF ++ rec.2 := by
  have hend := recEnd_eq rec
  unfold Tally.add
  dsimp only
  split
  · rw [hashFill_eq]
    exact ⟨by omega, rfl⟩
  · refine ⟨by omega, ?_⟩
    rw [Nat.sub_eq_zero_of_le (by omega), List.replicate_zero, List.append_nil]

theorem Tally.add_back (t : Tally) (rec : Nat × List UInt8) (h : rec.1 ≤ t.next) :
    (t.add rec).size = t.size + rec.2.length ∧ (t.add rec).hash = t.hash ++ rec.2 := by
  unfold Tally.add
  dsimp only
  rw [if_neg (Nat.not_lt.mpr h), if_neg (Nat.not_lt.mpr h)]
  exact ⟨rfl, rfl⟩

/-- What the tool has added up is the image of the records so far. -/
structure Tally.Holds (t : Tally) (done : List (Nat × List UInt8)) : Prop where
  size : t.size = highestEnd done
  flat : Flat done t.hash

theorem Trailing.holds (H : Trailing n recs) (hn : t.next = n) (hle : n ≤ highestEnd done)
    (ht : t.Holds done) : (recs.foldl Tally.add t).Holds (done ++ recs) := by
  induction H generalizing t done with
  | nil => rwa [List.append_nil]
  | @cons n addr recs haddr _ ih =>
    obtain ⟨hsize, hhash⟩ := t.add_back (addr, []) (by dsimp only; omega)
    have hin : addr ≤ highestEnd done := by omega
    rw [List.foldl_cons, List.append_cons]
    apply ih
    · exact Nat.add_zero addr
    · rw [highestEnd_concat]
      exact Nat.le_trans hin (Nat.le_max_left _ _)
    · constructor
      · rw [hsize, ht.size, highestEnd_concat]
        exact (Nat.max_eq_left hin).symm
      · rw [hhash, List.append_nil]
        exact ht.flat.empty hin

theorem InOrder.holds (H : InOrder n recs) (hn : t.next = n) (hdone : highestEnd done = n)
    (ht : t.Holds done) : (recs.foldl Tally.add t).Holds (done ++ recs) := by
  induction H generalizing t done with
  | trailing H => exact H.holds hn (Nat.le_of_eq hdone.symm) ht
  | @next n r recs hle _ ih =>
    obtain ⟨hsize, hhash⟩ := t.add_next r (by omega)
    have hend := recEnd_eq r
    have hmax : highestEnd (done ++ [r]) = recEnd r := by
      rw [highestEnd_concat]
      omega
    rw [List.foldl_cons, List.append_cons]
    apply ih
    · rfl
    · exact hmax
    · constructor
      · have hst := ht.size
        omega
      · have hlen := ht.flat.length
        rw [hhash, show r.1 - t.next = r.1 - t.hash.length by omega]
        exact ht.flat.extend (by omega)

/-! ## Other orders -/

/-- A size that is too large stays too large. -/
theorem tally_over (recs : List (Nat × List UInt8)) (hnext : t.next ≤ n) (hsize : n < t.size) :
    endFrom n recs < (recs.foldl Tally.add t).size := by
  induction recs generalizing t n with
  | nil => exact hsize
  | cons r recs ih =>
    have hend := recEnd_eq r
    have hover : max n (recEnd r) < (t.add r).size := by
      rcases Nat.le_total t.next r.1 with hle | hle
      · have hadd := (t.add_next r hle).1
        omega
      · have hadd := (t.add_back r hle).1
        omega
    exact ih (t := t.add r) (Nat.le_max_right n _) hover

/-- Below the end so far, only an empty record that goes back leaves the size right. -/
theorem tally_empty (hnext : t.next ≤ n) (hsize : t.size = n) (hlt : t.next < n ∨ rec.1 < n)
    (h : ((rec :: recs).foldl Tally.add t).size = endFrom n (rec :: recs)) :
    rec.2 = [] ∧ rec.1 ≤ t.next := by
  have hend := recEnd_eq rec
  have hle : (t.add rec).size ≤ max n (recEnd rec) := by
    apply Nat.le_of_not_lt
    intro hover
    have hfinal := tally_over (t := t.add rec) recs (Nat.le_max_right n _) hover
    exact absurd h (Nat.ne_of_gt hfinal)
  suffices rec.2.length = 0 ∧ rec.1 ≤ t.next from
    ⟨List.eq_nil_of_length_eq_zero this.1, this.2⟩
  rcases Nat.le_total t.next rec.1 with hge | hge
  · have hadd := (t.add_next rec hge).1
    omega
  · have hadd := (t.add_back rec hge).1
    omega

theorem endFrom_empty {addr : Nat} (h : addr ≤ n) :
    endFrom n ((addr, []) :: recs) = endFrom n recs := by
  have hmax : max n (recEnd (addr, [])) = n := Nat.max_eq_left h
  rw [endFrom, List.foldl_cons, hmax]
  rfl

theorem tally_trailing (hnext : t.next < n) (hsize : t.size = n)
    (h : (recs.foldl Tally.add t).size = endFrom n recs) : Trailing t.next recs := by
  induction recs generalizing t with
  | nil => exact .nil
  | cons r recs ih =>
    obtain ⟨addr, data⟩ := r
    obtain ⟨rfl, hle⟩ := tally_empty (Nat.le_of_lt hnext) hsize (.inl hnext) h
    have hlt : addr < n := Nat.lt_of_le_of_lt hle hnext
    rw [endFrom_empty (Nat.le_of_lt hlt)] at h
    exact .cons hle (ih (t := t.add (addr, [])) hlt ((t.add_back (addr, []) hle).1.trans hsize) h)

theorem tally_inOrder (hnext : t.next = n) (hsize : t.size = n)
    (h : (recs.foldl Tally.add t).size = endFrom n recs) : InOrder n recs := by
  induction recs generalizing t n with
  | nil => exact .trailing .nil
  | cons r recs ih =>
    rcases Nat.lt_or_ge r.1 n with hlt | hle
    · obtain ⟨addr, data⟩ := r
      obtain ⟨rfl, hle⟩ := tally_empty (Nat.le_of_eq hnext) hsize (.inr hlt) h
      have hlt : addr < n := hlt
      rw [endFrom_empty (Nat.le_of_lt hlt)] at h
      apply InOrder.trailing
      apply Trailing.cons (Nat.le_of_lt hlt)
      exact tally_trailing (t := t.add (addr, [])) hlt ((t.add_back (addr, []) hle).1.trans hsize) h
    · have hadd := (t.add_next r (by omega)).1
      have hend := recEnd_eq r
      have hmax : max n (recEnd r) = recEnd r := by omega
      rw [endFrom, List.foldl_cons, List.foldl_cons, hmax] at h
      apply InOrder.next hle
      exact ih (t := t.add r) rfl (by omega) h

/-- **The tally is the image exactly for records in order.** -/
theorem tally_iff : (recs.foldl Tally.add {}).Holds recs ↔ InOrder 0 recs := by
  constructor
  · intro h
    exact tally_inOrder rfl rfl h.size
  · intro h
    have hstart : Tally.Holds {} [] := ⟨rfl, .nil⟩
    exact h.holds rfl rfl hstart

/-! ## Two files -/

/-- The byte the records have at an address. -/
def Describes (recs : List (Nat × List UInt8)) (a : Nat) (b : UInt8) : Prop :=
  ∃ r ∈ recs, r.1 ≤ a ∧ r.2[a - r.1]? = some b

theorem Flat.covered {a : Nat} (H : Flat recs bytes) (ha : a < bytes.length) :
    (∃ b, Describes recs a b ∧ bytes[a]? = some b) ∨
      (∀ b, ¬ Describes recs a b) ∧ bytes[a]? = some 0xFF := by
  by_cases hcov : ∃ r ∈ recs, r.1 ≤ a ∧ a < recEnd r
  · obtain ⟨r, hr, hle, hlt⟩ := hcov
    have hend := recEnd_eq r
    have hk : a - r.1 < r.2.length := by omega
    have hbyte := H.data r hr (a - r.1) _ (List.getElem?_eq_getElem hk)
    rw [Nat.add_sub_cancel' hle] at hbyte
    exact .inl ⟨_, ⟨r, hr, hle, List.getElem?_eq_getElem hk⟩, hbyte⟩
  · refine .inr ⟨?_, H.fill a ha fun r hr hin => hcov ⟨r, hr, hin⟩⟩
    rintro b ⟨r, hr, hle, hget⟩
    have hend := recEnd_eq r
    have hlt := (List.getElem?_eq_some_iff.mp hget).1
    exact hcov ⟨r, hr, hle, by omega⟩

/-- The image is determined by what the records describe and where they end. -/
theorem Flat.unique (H : Flat recs bytes) (H' : Flat recs' bytes')
    (hsame : ∀ a b, Describes recs a b ↔ Describes recs' a b)
    (hend : highestEnd recs = highestEnd recs') : bytes = bytes' := by
  have hlen : bytes.length = bytes'.length := by rw [H.length, H'.length, hend]
  refine List.ext_getElem? fun a => ?_
  rcases Nat.lt_or_ge a bytes.length with ha | ha
  · rcases H.covered ha with ⟨b, ⟨r, hr, hle, hget⟩, hbyte⟩ | ⟨hnone, hbyte⟩
    · obtain ⟨r', hr', hle', hget'⟩ := (hsame a b).mp ⟨r, hr, hle, hget⟩
      have hbyte' := H'.data r' hr' _ _ hget'
      rw [Nat.add_sub_cancel' hle'] at hbyte'
      rw [hbyte, hbyte']
    · rcases H'.covered (hlen ▸ ha) with ⟨b, hb, -⟩ | ⟨-, hbyte'⟩
      · exact absurd ((hsame a b).mpr hb) (hnone b)
      · rw [hbyte, hbyte']
  · rw [List.getElem?_eq_none ha, List.getElem?_eq_none (by omega)]

/-! ## The tool -/

variable {C : HostCrypto} {file file' : List Line} {rs rest : List HexRecord} {r : HexRecord}
  {v : HostVars} {h : Host}

/-- A record is skipped, or added to the tally and left to flash. -/
theorem hostRecord_tally (v : HostVars) (rest : List HexRecord) (hne : r.type ≠ 1) :
    ((hostRecord v r).1.tally = v.tally ∧
      flashable v.addrUpper v.ignoreNextDataRec (r :: rest) =
        flashable (hostRecord v r).1.addrUpper (hostRecord v r).1.ignoreNextDataRec rest) ∨
    ∃ rec, (hostRecord v r).1.tally = v.tally.add rec ∧
      flashable v.addrUpper v.ignoreNextDataRec (r :: rest) =
        rec ::
          flashable (hostRecord v r).1.addrUpper (hostRecord v r).1.ignoreNextDataRec rest := by
  rw [flashable, if_neg hne]
  by_cases h0 : r.type = 0
  · rw [if_pos h0]
    cases hig : v.ignoreNextDataRec with
    | true =>
      rw [hostRecord, if_pos h0, if_pos hig]
      exact .inl ⟨rfl, by rw [hig]; rfl⟩
    | false =>
      rw [(hostRecord_data h0 hig).1]
      exact .inr ⟨(v.addrUpper * 2 ^ 16 + r.offset, r.data), rfl, by rw [hig]; rfl⟩
  · rw [if_neg h0, hostRecord, if_neg h0, if_neg hne]
    by_cases h4 : r.type = 4
    · rw [if_pos h4, if_pos h4]
      dsimp only
      split
      · exact .inl ⟨rfl, rfl⟩
      · exact .inl ⟨rfl, rfl⟩
    · rw [if_neg h4, if_neg h4]
      exact .inl ⟨rfl, rfl⟩

theorem foldl_hostRecord_tally (hrs : ∀ r ∈ rs, r.type ≠ 1) (heof : r.type = 1) :
    (rs.foldl (fun v r => (hostRecord v r).1) v).tally =
      (flashable v.addrUpper v.ignoreNextDataRec (rs ++ r :: rest)).foldl Tally.add v.tally := by
  induction rs generalizing v with
  | nil => rw [List.nil_append, flashable, if_neg (by omega), if_pos heof]; rfl
  | cons r' rs ih =>
    have htail := ih (v := (hostRecord v r').1) fun r hr => hrs r (List.mem_cons_of_mem _ hr)
    rw [List.foldl_cons, htail, List.cons_append]
    rcases hostRecord_tally v (rs ++ r :: rest) (hrs r' List.mem_cons_self) with
      ⟨htally, hleft⟩ | ⟨rec, htally, hleft⟩
    · rw [htally, hleft]
    · rw [htally, hleft, List.foldl_cons]

/-- The tool has come to the end-of-file record, and has not sent the signature yet. -/
def Host.Sized (h : Host) : Prop := h.pc = .waitSize ∨ h.pc = .waitSignat

theorem ToolInv.sized (H : ToolInv rs h) (hsized : h.Sized) :
    h.vars.tally = (flashable 0 false rs).foldl Tally.add {} := by
  cases H with
  | waitSize hrs heof hdone | waitSignat hrs heof hdone =>
    rw [hrs]
    exact foldl_hostRecord_tally hdone heof
  | reading | waitData | returned | exited =>
    rcases hsized with hpc | hpc <;> cases hpc

theorem toolRun_sized (hfile : HexFile file recs) (hrun : ToolRun C file h) (hsized : h.Sized) :
    h.vars.tally = recs.foldl Tally.add {} := by
  obtain ⟨hlines, -⟩ := hfile
  exact (toolRun_inv hlines hrun).sized hsized

/-- The end of the file is reached, the device willing. -/
theorem exists_sized (C : HostCrypto) (hfile : HexFile file recs) :
    ∃ h, ToolRun C file h ∧ h.Sized := by
  obtain ⟨rs, hlines, r, hr, heof⟩ :
      ∃ rs, List.Forall₂ HexLine file rs ∧ ∃ r ∈ rs, r.type = 1 := by
    obtain ⟨hlines, heof⟩ := hfile
    exact ⟨_, hlines, heof⟩
  have hsome : (rs.find? fun r => r.type == 1).isSome := by
    rw [List.find?_isSome]
    exact ⟨r, hr, by simp [heof]⟩
  obtain ⟨e, he⟩ := Option.isSome_iff_exists.mp hsome
  obtain ⟨htype, done, rest, rfl, hdone⟩ := List.find?_eq_some_iff_append.mp he
  have htype : e.type = 1 := by simpa using htype
  have hdone : ∀ r ∈ done, r.type ≠ 1 := fun r hr => by simpa using hdone r hr
  have hrun := toolRun_reading (C := C) done hlines hdone
  have hleft := List.forall₂_drop_append file done (e :: rest) hlines
  obtain ⟨line, left, hline, -, hdrop⟩ := List.forall₂_cons_right_iff.mp hleft
  rw [hdrop] at hrun
  exact ⟨_, hrun.act (hostAct_eof hline htype), .inl rfl⟩

/-- **The size and the digest depend on the image only**, exactly for the files whose data records
ascend: they are then those of the flat image, and two such files that describe the same bytes and
end at the same address have the same. -/
theorem size_and_digest_iff (C : HostCrypto) (file file' : List Line)
    (recs recs' : List (Nat × List UInt8)) (hfile : HexFile file recs)
    (hfile' : HexFile file' recs') :
    ((∀ h, ToolRun C file h → h.Sized →
      h.vars.fwSize = highestEnd recs ∧ Flat recs h.vars.fwHash) ↔ InOrder 0 recs) ∧
    (InOrder 0 recs → InOrder 0 recs' → (∀ a b, Describes recs a b ↔ Describes recs' a b) →
      ∀ h h', ToolRun C file h → h.Sized → ToolRun C file' h' → h'.Sized →
        (h.vars.fwSize = h'.vars.fwSize ∧ h.vars.fwHash = h'.vars.fwHash ↔
          highestEnd recs = highestEnd recs')) := by
  have hholds : ∀ {file recs}, HexFile file recs → InOrder 0 recs → ∀ h, ToolRun C file h →
      h.Sized → h.vars.fwSize = highestEnd recs ∧ Flat recs h.vars.fwHash := by
    intro file recs hfile horder h hrun hsized
    have htally : h.vars.tally.Holds recs := by
      rw [toolRun_sized hfile hrun hsized]
      exact tally_iff.mpr horder
    exact ⟨htally.size, htally.flat⟩
  refine ⟨⟨fun hall => ?_, hholds hfile⟩, ?_⟩
  · obtain ⟨h, hrun, hsized⟩ := exists_sized C hfile
    obtain ⟨hsize, hflat⟩ := hall h hrun hsized
    apply tally_iff.mp
    rw [← toolRun_sized hfile hrun hsized]
    exact ⟨hsize, hflat⟩
  · intro horder horder' hsame h h' hrun hsized hrun' hsized'
    obtain ⟨hsize, hflat⟩ := hholds hfile horder h hrun hsized
    obtain ⟨hsize', hflat'⟩ := hholds hfile' horder' h' hrun' hsized'
    constructor
    · rintro ⟨heq, -⟩
      rw [← hsize, ← hsize', heq]
    · intro hend
      exact ⟨by rw [hsize, hsize', hend], hflat.unique hflat' hsame hend⟩

theorem byteRecord_digest : ∃ h,
    ToolRun default ([byteRecord, eofRecord].map HexRecord.toLine) h ∧ h.Sized ∧
      h.vars.fwSize = 1 := by
  have hfile := hexFile_records [byteRecord, eofRecord] ⟨eofRecord, by simp, rfl⟩
  obtain ⟨h, hrun, hsized⟩ := exists_sized default hfile
  have horder : InOrder 0 (flashable 0 false [byteRecord, eofRecord]) :=
    .next (Nat.le_refl 0) (.trailing .nil)
  exact ⟨h, hrun, hsized,
    ((size_and_digest_iff default _ _ _ _ hfile hfile).1.mpr horder h hrun hsized).1⟩

/-- The same byte at offset 1. -/
def upperByteRecord : HexRecord := { byteRecord with offset := 1, offset_lt := by decide }

/-- Two bytes, the upper one first: the tool counts three. -/
theorem descending_records_counted :
    HexFile ([upperByteRecord, byteRecord, eofRecord].map HexRecord.toLine)
      [(1, [0x5A]), (0, [0x5A])] ∧
    [(1, [(0x5A : UInt8)]), (0, [0x5A])].Pairwise (fun r r' => recEnd r ≤ r'.1 ∨ recEnd r' ≤ r.1) ∧
    highestEnd [(1, [0x5A]), (0, [0x5A])] = 2 ∧
    ∃ h, ToolRun default ([upperByteRecord, byteRecord, eofRecord].map HexRecord.toLine) h ∧
      h.Sized ∧ h.vars.fwSize = 3 := by
  have hfile := hexFile_records [upperByteRecord, byteRecord, eofRecord]
    ⟨eofRecord, by simp, rfl⟩
  obtain ⟨h, hrun, hsized⟩ := exists_sized default hfile
  refine ⟨hfile, by decide, by decide, h, hrun, hsized, ?_⟩
  exact congrArg Tally.size (toolRun_sized hfile hrun hsized)

end Pic18Boot
