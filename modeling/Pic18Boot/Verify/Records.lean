import Pic18Boot.Verify.HexFile
import Pic18Boot.Verify.Host

/-! # The tool over a file, whatever it is answered

The variables of the tool at a record depend on the records before it only (`ToolInv`), and every
record up to the end-of-file record can be reached (`toolRun_reading`). So the addresses at which
records are flashed are read off the file (`record_addresses_iff`). -/

namespace Pic18Boot
open Dialogue

/-- The states of the tool on the file. -/
abbrev ToolRun (C : HostCrypto) (file : List Line) : Host → Prop := (tool C).Runs (hostStart file)

/-- The variables of the tool after the records. -/
def varsAfter (rs : List HexRecord) : HostVars := rs.foldl (fun v r => (hostRecord v r).1) {}

/-- Where the tool stands in a file of the records. -/
inductive ToolInv (rs : List HexRecord) : Host → Prop
  | reading {done rest left} : rs = done ++ rest → List.Forall₂ HexLine left rest →
    (∀ r ∈ done, r.type ≠ 1) → ToolInv rs ⟨varsAfter done, .reading left⟩
  | waitData {done rest left} : rs = done ++ rest → List.Forall₂ HexLine left rest →
    (∀ r ∈ done, r.type ≠ 1) → ToolInv rs ⟨varsAfter done, .waitData left⟩
  | waitSize {done r rest} : rs = done ++ r :: rest → r.type = 1 → (∀ r ∈ done, r.type ≠ 1) →
    ToolInv rs ⟨varsAfter done, .waitSize⟩
  | waitSignat {done r rest} : rs = done ++ r :: rest → r.type = 1 → (∀ r ∈ done, r.type ≠ 1) →
    ToolInv rs ⟨varsAfter done, .waitSignat⟩
  | returned {v} : ToolInv rs ⟨v, .returned⟩
  | exited {v} : ToolInv rs ⟨v, .exited⟩

variable {C : HostCrypto} {file left : List Line} {rs done rest : List HexRecord} {r : HexRecord}
  {v : HostVars} {h h' : Host} {out : List UInt8} {line : Line}

/-- In a flashing session the tool is in such a state. -/
theorem toolRun_of_flashing {L : Layout} {s : Nvm} {msg : Nat → UInt8} {c : Link}
    (hc : Flashing C L s msg file c) : ToolRun C file c.client := Reach.client hc

theorem varsAfter_concat : varsAfter (done ++ [r]) = (hostRecord (varsAfter done) r).1 := by
  simp [varsAfter]

/-- A record is skipped or flashed, unless it ends the file. -/
theorem hostRecord_action (hne : r.type ≠ 1) :
    (hostRecord v r).2 = .skip ∨ ∃ frame, (hostRecord v r).2 = .flash frame := by
  simp only [hostRecord, if_neg hne]
  split
  · split
    · exact .inl rfl
    · exact .inr ⟨_, rfl⟩
  split
  · split <;> exact .inl rfl
  · exact .inl rfl

theorem hostRecord_eof (heof : r.type = 1) :
    hostRecord v r = (v, .finish (encodeSize v.fwSize)) := by
  rw [hostRecord, if_neg (by omega), if_pos heof]

/-- The tool goes over one record. -/
theorem hostAct_record (v : HostVars) (left : List Line) (hline : HexLine line r)
    (hne : r.type ≠ 1) :
    ((hostRecord v r).2 = .skip ∧
      hostAct ⟨v, .reading (line :: left)⟩ = some (⟨(hostRecord v r).1, .reading left⟩, [])) ∨
    ∃ frame, (hostRecord v r).2 = .flash frame ∧
      hostAct ⟨v, .reading (line :: left)⟩ =
        some (⟨(hostRecord v r).1, .waitData left⟩, frame) := by
  simp only [hostAct, hostLine_record hline]
  generalize hx : hostRecord v r = x
  obtain ⟨v', action⟩ := x
  rcases hostRecord_action (v := v) hne with hskip | ⟨frame, hflash⟩
  · rw [hx] at hskip
    obtain rfl : action = .skip := hskip
    exact .inl ⟨rfl, rfl⟩
  · rw [hx] at hflash
    obtain rfl : action = .flash frame := hflash
    exact .inr ⟨frame, rfl, rfl⟩

theorem hostAct_eof (hline : HexLine line r) (heof : r.type = 1) :
    hostAct ⟨v, .reading (line :: left)⟩ = some (⟨v, .waitSize⟩, encodeSize v.fwSize) := by
  simp only [hostAct, hostLine_record hline, hostRecord_eof heof]

theorem ToolInv.act (H : ToolInv rs h) (ha : hostAct h = some (h', out)) : ToolInv rs h' := by
  cases H with
  | @reading done rest left hrs hleft hdone =>
    cases hleft with
    | nil =>
      cases ha
      exact .returned
    | @cons line r left rest hline hleft =>
      by_cases heof : r.type = 1
      · rw [hostAct_eof hline heof] at ha
        cases ha
        exact .waitSize hrs heof hdone
      have hrs' : rs = done ++ [r] ++ rest := by rw [hrs, List.append_assoc]; rfl
      have hdone' : ∀ r' ∈ done ++ [r], r'.type ≠ 1 := by
        intro r' hr'
        rcases List.mem_append.mp hr' with hr' | hr'
        · exact hdone r' hr'
        · rwa [List.mem_singleton.mp hr']
      rcases hostAct_record (varsAfter done) left hline heof with
        ⟨-, heq⟩ | ⟨frame, -, heq⟩
      · rw [heq] at ha
        cases ha
        rw [← varsAfter_concat]
        exact .reading hrs' hleft hdone'
      · rw [heq] at ha
        cases ha
        rw [← varsAfter_concat]
        exact .waitData hrs' hleft hdone'
  | waitData | waitSize | waitSignat | returned | exited => cases ha

theorem ToolInv.recv (H : ToolInv rs h) (hw : h.Waiting) (b : UInt8) :
    ToolInv rs (hostRecv C h b).1 := by
  unfold hostRecv
  split
  · cases H with
    | reading | returned | exited => exact absurd hw nofun
    | waitData hrs hleft hdone => exact .reading hrs hleft hdone
    | waitSize hrs heof hdone => exact .waitSignat hrs heof hdone
    | waitSignat => exact .returned
  · split
    · exact .exited
    · exact H

theorem toolRun_inv (hfile : List.Forall₂ HexLine file rs) (hrun : ToolRun C file h) :
    ToolInv rs h := by
  induction hrun with
  | start => exact @ToolInv.reading rs [] rs file rfl hfile nofun
  | act _ hact ih => exact ih.act hact
  | recv b _ hwait ih => exact ih.recv hwait b

/-- Every record up to the end-of-file record is reached, the device willing. -/
theorem toolRun_reading (done : List HexRecord) (hfile : List.Forall₂ HexLine file (done ++ rest))
    (hdone : ∀ r ∈ done, r.type ≠ 1) :
    ToolRun C file ⟨varsAfter done, .reading (file.drop done.length)⟩ := by
  induction done using List.reverseRecOn generalizing rest with
  | nil => exact .start
  | append_singleton done r ih =>
    rw [List.append_assoc] at hfile
    have hprev := ih hfile fun r' hr' => hdone r' (List.mem_append_left _ hr')
    have hleft := List.forall₂_drop_append file done ([r] ++ rest) hfile
    cases hdrop : file.drop done.length with
    | nil =>
      rw [hdrop] at hleft
      cases hleft
    | cons line left =>
      rw [hdrop] at hleft hprev
      have hline := (List.forall₂_cons.mp hleft).1
      have hnext : file.drop (done ++ [r]).length = left := by
        rw [List.length_append, ← List.drop_drop, hdrop]
        rfl
      rw [hnext, varsAfter_concat]
      rcases hostAct_record (varsAfter done) left hline (hdone r (by simp)) with
        ⟨-, heq⟩ | ⟨frame, -, heq⟩
      · exact hprev.act heq
      · exact (hprev.act heq).recv mcuMsgOpSuccess trivial

/-! ## Addresses -/

/-- The upper 16 bits of the addresses after the records. -/
def upperAfter (rs : List HexRecord) : Nat :=
  rs.foldl (fun upper r =>
    if r.type = 4 then (r.data.getD 0 0).toNat * 2 ^ 8 + (r.data.getD 1 0).toNat else upper) 0

theorem upperAfter_concat : upperAfter (done ++ [r]) = if r.type = 4 then
    (r.data.getD 0 0).toNat * 2 ^ 8 + (r.data.getD 1 0).toNat else upperAfter done := by
  simp [upperAfter]

theorem hostRecord_upper (h4 : r.type ≠ 4) :
    (hostRecord v r).1.ignoreNextDataRec = v.ignoreNextDataRec ∧
      (hostRecord v r).1.addrUpper = v.addrUpper := by
  simp only [hostRecord, if_neg h4]
  split
  · split <;> exact ⟨rfl, rfl⟩
  · split <;> exact ⟨rfl, rfl⟩

/-- What the tool remembers of them: the low byte, or that it is too large. -/
theorem varsAfter_upper (done : List HexRecord) : ((varsAfter done).ignoreNextDataRec = true ↔
      0x10 < upperAfter done % 2 ^ 8) ∧
    ((varsAfter done).ignoreNextDataRec = false →
      (varsAfter done).addrUpper = upperAfter done % 2 ^ 8) := by
  induction done using List.reverseRecOn with
  | nil => exact ⟨by decide, fun _ => rfl⟩
  | append_singleton done r ih =>
    rw [varsAfter_concat, upperAfter_concat]
    by_cases h4 : r.type = 4
    · have hlow := (r.data.getD 1 0).toNat_lt
      have hmod : ((r.data.getD 0 0).toNat * 2 ^ 8 + (r.data.getD 1 0).toNat) % 2 ^ 8 =
          (r.data.getD 1 0).toNat := by omega
      rw [if_pos h4, hmod, hostRecord, if_neg (by omega), if_neg (by omega), if_pos h4]
      dsimp only
      split
      · next hbig => exact ⟨iff_of_true rfl hbig, fun h => Bool.noConfusion h⟩
      · next hbig => exact ⟨iff_of_false Bool.false_ne_true hbig, fun _ => rfl⟩
    · obtain ⟨hig, hupper⟩ := hostRecord_upper (v := varsAfter done) h4
      rw [if_neg h4, hig, hupper]
      exact ih

/-- What the tool does with a data record at the absolute address `addr`: it sends the record with
this address or nothing, and above 1 MiB it neither sends, hashes nor counts it. -/
def AddressedAt (addr : Nat) (r : HexRecord) (h : Host) : Prop :=
  ∀ h' out, hostAct h = some (h', out) →
    (out ≠ [] → out = encodeData r.data r.data.length addr) ∧
      (0x110000 ≤ addr → out = [] ∧ h'.vars = h.vars)

/-- An upper address whose low byte alone says where the record belongs. -/
def LowUpper (upper : Nat) : Prop := upper < 2 ^ 8 ∨ 0x10 < upper % 2 ^ 8

theorem addressedAt_iff (hline : HexLine line r) (hdata : r.type = 0) :
    AddressedAt (upperAfter done * 2 ^ 16 + r.offset) r
      ⟨varsAfter done, .reading (line :: left)⟩ ↔ LowUpper (upperAfter done) := by
  have hoff := r.offset_lt
  obtain ⟨hig, hupper⟩ := varsAfter_upper done
  rw [AddressedAt, LowUpper]
  simp only [hostAct, hostLine_record hline]
  cases hignore : (varsAfter done).ignoreNextDataRec with
  | true =>
    rw [hostRecord, if_pos hdata, if_pos hignore]
    refine iff_of_true (fun h' out ha => ?_) (.inr (hig.mp hignore))
    cases ha
    exact ⟨absurd rfl, fun _ => ⟨rfl, rfl⟩⟩
  | false =>
    have hsmall : ¬ 0x10 < upperAfter done % 2 ^ 8 := by
      rw [← hig, hignore]
      exact Bool.false_ne_true
    obtain ⟨-, haction⟩ := hostRecord_data hdata hignore
    generalize hostRecord (varsAfter done) r = x at haction
    obtain ⟨v', action⟩ := x
    obtain rfl : action = _ := haction
    rw [hupper hignore]
    constructor
    · intro h
      refine .inl (Nat.lt_of_not_le fun hbig => ?_)
      have hnil := ((h _ _ rfl).2 (by omega)).1
      exact encodeForUart_ne_nil hnil
    · rintro (hlt | hbig) h' out ha
      · cases ha
        refine ⟨fun _ => by rw [Nat.mod_eq_of_lt hlt], fun hle => absurd hle (by omega)⟩
      · exact absurd hbig hsmall

/-- **No record is flashed at a wrong address**, exactly for the files whose data records stand
under upper addresses with a high byte of 0, or a low byte above 0x10. -/
theorem record_addresses_iff (C : HostCrypto) (file : List Line) (rs : List HexRecord)
    (hfile : List.Forall₂ HexLine file rs) :
    (∀ done r rest, rs = done ++ r :: rest → r.type = 0 → ∀ v,
      ToolRun C file ⟨v, .reading (file.drop done.length)⟩ →
        AddressedAt (upperAfter done * 2 ^ 16 + r.offset) r
          ⟨v, .reading (file.drop done.length)⟩) ↔
    ∀ done r rest, rs = done ++ r :: rest → r.type = 0 → (∀ r' ∈ done, r'.type ≠ 1) →
      LowUpper (upperAfter done) := by
  refine forall₃_congr fun done r rest => forall₂_congr fun hrs hdata => ?_
  subst hrs
  obtain ⟨line, left, hleft, hline⟩ : ∃ line left,
      file.drop done.length = line :: left ∧ HexLine line r := by
    have hdrop := List.forall₂_drop_append file done (r :: rest) hfile
    obtain ⟨line, left, hline, -, heq⟩ := List.forall₂_cons_right_iff.mp hdrop
    exact ⟨line, left, heq, hline⟩
  constructor
  · intro h hdone
    have hrun := toolRun_reading (C := C) done hfile hdone
    have haddr := h _ hrun
    rw [hleft] at haddr
    exact (addressedAt_iff hline hdata).mp haddr
  · intro h v hrun
    have hinv := toolRun_inv hfile hrun
    cases hinv with
    | @reading done' rest' _ hrs hrest hdone' =>
      have hlen : done'.length = done.length := by
        have hlen := congrArg List.length hrs
        have hlen' := hrest.length_eq
        have hfilelen := hfile.length_eq
        simp only [List.length_append, List.length_drop] at hlen hlen' hfilelen
        simp only [List.length_cons] at hlen hfilelen
        omega
      obtain ⟨rfl, -⟩ := List.append_inj hrs.symm hlen
      rw [hleft]
      exact (addressedAt_iff hline hdata).mpr (h hdone')

/-- An extended linear address record. -/
def extRecord (hi lo : UInt8) : HexRecord :=
  { eofRecord with
    type := 4
    data := [hi, lo]
    type_le := by decide
    length_lt := (by decide : 2 < 2 ^ 8)
    length_ext := fun _ => rfl }

/-- The last 64 KiB that are flashed. -/
theorem top_record_addressed : AddressedAt 0x100000 byteRecord
    ⟨varsAfter [extRecord 0 0x10], .reading [byteRecord.toLine]⟩ := by
  have hfile : List.Forall₂ HexLine _ ([extRecord 0 0x10] ++ [byteRecord]) := toLines_spell _
  have hrun := toolRun_reading (C := default) [extRecord 0 0x10] hfile (by decide)
  refine (record_addresses_iff default _ _ hfile).mpr ?_ [extRecord 0 0x10] byteRecord [] rfl rfl _
    hrun
  intro done r rest hrs hdata _
  rcases done with _ | ⟨ext, _ | ⟨byte, done⟩⟩
  · cases hrs
    exact absurd hdata (by decide)
  · cases hrs
    exact .inl (by decide)
  · exact absurd (congrArg List.length hrs) (by simp)

/-- The same record under an upper address of 0x0100 is flashed at 0. -/
theorem high_record_misplaced : ¬ ∀ done r rest,
    [extRecord 1 0, byteRecord] = done ++ r :: rest → r.type = 0 → ∀ v,
      ToolRun default ([extRecord 1 0, byteRecord].map HexRecord.toLine)
        ⟨v, .reading (([extRecord 1 0, byteRecord].map HexRecord.toLine).drop done.length)⟩ →
      AddressedAt (upperAfter done * 2 ^ 16 + r.offset) r
        ⟨v, .reading (([extRecord 1 0, byteRecord].map HexRecord.toLine).drop done.length)⟩ := by
  intro h
  have hfile : List.Forall₂ HexLine _ ([extRecord 1 0] ++ [byteRecord]) := toLines_spell _
  have hrun := toolRun_reading (C := default) [extRecord 1 0] hfile (by decide)
  have haddr := h [extRecord 1 0] byteRecord [] rfl rfl _ hrun
  exact absurd ((addressedAt_iff HexRecord.toLine_spells rfl).mp haddr) (by
    rw [LowUpper]
    decide)

end Pic18Boot
