import Pic18Boot.Verify.Deadlock
import Pic18Boot.Verify.Commands

/-! # From the HEX file to the boot decision

`Progress` relates what the tool has hashed to what flash holds, in every state between two
exchanges of a session. The dialogue ends, and where it ends tool and bootloader agree on what is
signed (`host_and_bootloader_agree`). -/

namespace Pic18Boot
open Dialogue

variable {C : HostCrypto} {L : Layout} {s : Nvm} {msg : Nat → UInt8} {file : List Line}
  {recs done : List (Nat × List UInt8)} {h h' : Host} {d : Device} {is : List Rcv}
  {out : List UInt8}

/-! ## The records of a file -/

/-- Every record of a signable list may be flashed on top of those before it. -/
theorem Signable.follows {rec : Nat × List UInt8} {rest : List (Nat × List UInt8)}
    (hrecs : Signable L (done ++ rec :: rest)) : Follows (image done) rec := by
  obtain ⟨data, tail, heq, h4, hff, h8⟩ := hrecs.first
  cases done with
  | nil =>
    obtain ⟨rfl, rfl⟩ := List.cons.inj heq
    exact .first rfl h4 hff
  | cons r done =>
    obtain ⟨rfl, rfl⟩ := List.cons.inj heq
    obtain ⟨hasc, -, hlast⟩ := List.pairwise_append.mp hrecs.ascending
    obtain ⟨addr, data'⟩ := rec
    have himg : 4 ≤ (extendImage [] (0, data)).length := by simpa [extendImage] using h4
    exact .next (Nat.le_trans himg le_length_image) (h8 (addr, data') (by simp))
      (length_image_le hasc fun r hr => hlast r hr _ List.mem_cons_self)

theorem Signable.length_image (hrecs : Signable L recs) : (image recs).length ≤ L.signatOffset :=
  length_image_le hrecs.ascending fun r hr => Nat.le_of_lt (hrecs.below r hr)

/-- The lines left of the file hold the records after `done`. -/
def Remains (recs done : List (Nat × List UInt8)) (v : HostVars) (file : List Line) : Prop :=
  ∃ rs, List.Forall₂ HexLine file rs ∧ (∃ r ∈ rs, r.type = 1) ∧
    recs = done ++ flashable v.addrUpper v.ignoreNextDataRec rs

/-! ## The states of a session -/

/-- Tool and device between two exchanges, and the request outstanding. -/
inductive Progress (C : HostCrypto) (L : Layout) (recs : List (Nat × List UInt8)) :
    Host → Device → List UInt8 → Prop
  | reading {v file done d} : Remains recs done v file → HostImage v (image done) → Ready d →
    ImageInv L (image done) d.nvm.flash → Progress C L recs ⟨v, .reading file⟩ d []
  | waitData {v file done rec d} : Remains recs (done ++ [rec]) v file →
    HostImage v (image (done ++ [rec])) → Ready d → ImageInv L (image done) d.nvm.flash →
    Progress C L recs ⟨v, .waitData file⟩ d (encodeData rec.2 rec.2.length rec.1)
  | waitSize {v d} : HostImage v (image recs) → Ready d → ImageInv L (image recs) d.nvm.flash →
    Progress C L recs ⟨v, .waitSize⟩ d (encodeSize v.fwSize)
  | waitSignat {v d} : HostImage v (image recs) → Ready d → Stored L (image recs) d.nvm.flash →
    (∀ k < 64, d.nvm.flash (L.signatOffset + k) = blank) →
    Progress C L recs ⟨v, .waitSignat⟩ d (encodeSignat (C.signDigest (C.sha256 v.fwHash)))
  | returned {v d} : HostImage v (image recs) → Ready d → Stored L (image recs) d.nvm.flash →
    storedSignat L d.nvm.flash = C.signDigest (C.sha256 v.fwHash) →
    Progress C L recs ⟨v, .returned⟩ d stopMsg

/-- A line of the file. -/
theorem Progress.act (hrecs : Signable L recs) (hp : Progress C L recs h d out)
    (hact : hostAct h = some (h', out')) : Progress C L recs h' d out' := by
  cases hp with
  | @reading v file done d hrest himg hready hinv =>
    obtain ⟨rs, hfile, heof, hdone⟩ := hrest
    cases hfile with
    | nil =>
      obtain ⟨r, hr, -⟩ := heof
      cases hr
    | @cons line r file rs hline hfile =>
      have hcase := hostRecord_cases v r
      have heof' : r.type ≠ 1 → ∃ r ∈ rs, r.type = 1 := fun hne => by
        obtain ⟨r', hr', heof⟩ := heof
        rcases List.mem_cons.mp hr' with rfl | hr'
        · exact absurd heof hne
        · exact ⟨r', hr', heof⟩
      simp only [hostAct, hostLine_record hline] at hact
      generalize hostRecord v r = x at hcase hact
      cases hcase with
      | skip hne hkeep hleft =>
        cases hact
        rw [hleft] at hdone
        exact .reading ⟨rs, hfile, heof' hne, hdone⟩ (hkeep _ himg) hready hinv
      | @flash v' rec hne hextend hleft =>
        cases hact
        rw [hleft] at hdone
        subst hdone
        refine .waitData ⟨rs, hfile, heof' hne, by simp⟩ ?_ hready hinv
        rw [image_concat]
        exact hextend _ hrecs.follows.le himg
      | finish hleft =>
        cases hact
        rw [hleft, List.append_nil] at hdone
        subst hdone
        exact .waitSize himg hready hinv
  | waitData | waitSize | waitSignat | returned => cases hact

/-- A reply: the device has carried out the request. -/
theorem Progress.reply (hrecs : Signable L recs) (hp : Progress C L recs h d out) (hw : h.Waiting)
    (his : is.map Rcv.byte = out) :
    ((bootloader L).run d is).2 = [mcuMsgOpSuccess] ∧
      Progress C L recs (hostRecv C h mcuMsgOpSuccess).1 ((bootloader L).run d is).1
        (hostRecv C h mcuMsgOpSuccess).2 := by
  cases hp with
  | reading | returned => exact absurd hw nofun
  | @waitData v file done rec d hrest himg hready hinv =>
    obtain ⟨rs, -, -, rfl⟩ := id hrest
    have hmem : rec ∈ done ++ [rec] ++ flashable v.addrUpper v.ignoreNextDataRec rs := by simp
    have hfollows : Follows (image done) rec := by
      rw [List.append_assoc] at hrecs
      exact hrecs.follows
    obtain ⟨hreply, hready', hinv'⟩ :=
      hready.data hinv hfollows (hrecs.length rec hmem) (hrecs.below rec hmem) his
    rw [← image_concat] at hinv'
    exact ⟨hreply, .reading hrest himg hready' hinv'⟩
  | @waitSize v d himg hready hinv =>
    rw [himg.size] at his
    obtain ⟨hreply, hready', hst, hfree⟩ :=
      hready.size hinv hrecs.total hrecs.length_image his
    exact ⟨hreply, .waitSignat himg hready' hst hfree⟩
  | @waitSignat v d himg hready hst hfree =>
    obtain ⟨hreply, hready', hst', hsig⟩ := hready.signat hst hrecs.total hrecs.length_image hfree
      (C.length_signDigest _) his
    exact ⟨hreply, .returned himg hready' hst' hsig⟩

theorem synced_progress (hs : s.Idle) (hfile : HexFile file recs) (hrecs : Signable L recs)
    (hsync : Synced C L s msg file h d out) : Progress C L recs h d out := by
  induction hsync with
  | start =>
    obtain ⟨hlines, heof⟩ := hfile
    have hinv : ImageInv L (image []) (sessionStart L s msg).nvm.flash := ImageInv.start hs
    exact .reading ⟨_, hlines, heof, rfl⟩ ⟨rfl, rfl, rfl⟩ ⟨rfl, rfl, sessionStart_idle hs⟩ hinv
  | act _ hact ih => exact ih.act hrecs hact
  | exchange _ hwait hb ih =>
    obtain ⟨hreply, hnext⟩ := ih.reply hrecs hwait rfl
    obtain rfl := List.singleton_inj.mp (hb.symm.trans hreply)
    exact hnext

/-- Every request is answered. -/
theorem Progress.answered (hrecs : Signable L recs) (hp : Progress C L recs h d out)
    (his : is.map Rcv.byte = out) (hne : is ≠ []) : ∃ b, ((bootloader L).run d is).2 = [b] := by
  by_cases hw : h.Waiting
  · exact ⟨_, (hp.reply hrecs hw his).1⟩
  cases hp with
  | reading => exact absurd (List.map_eq_nil_iff.mp his) hne
  | returned _ hready _ _ => exact ⟨_, (hready.stop his).1⟩
  | waitData | waitSize | waitSignat => exact absurd trivial hw

/-! ## The end of a session -/

/-- Tool and bootloader agree on what is signed. -/
structure Agreed (uECCVerify : List UInt8 → List UInt8 → List UInt8 → Bool) (C : HostCrypto)
    (L : Layout) (recs : List (Nat × List UInt8)) (c : Link) : Prop where
  returned : c.client.pc = .returned
  image : c.client.vars.fwHash = image recs
  hashed : hashedBytes L (.powerUp c.server.nvm.flash) = c.client.vars.fwHash
  size : storedSize L c.server.nvm.flash = c.client.vars.fwSize
  signat : storedSignat L c.server.nvm.flash = C.signDigest (C.sha256 c.client.vars.fwHash)
  /-- The verdict is on the host's signature and the host's digest. -/
  verdict : (signatureValid uECCVerify L (.powerUp c.server.nvm.flash)).1 =
    uECCVerify ecPubKey (C.sha256 c.client.vars.fwHash)
      (C.signDigest (C.sha256 c.client.vars.fwHash))

theorem Rcv.byte_surjective : Function.Surjective Rcv.byte :=
  fun b => ⟨⟨b, fun _ => 0, fun _ => 0⟩, rfl⟩

theorem stuck_agreed {uECCVerify : List UInt8 → List UInt8 → List UInt8 → Bool}
    (hsha : ∀ bytes, C.sha256 bytes = sha256 bytes) (hs : s.Idle) (hfile : HexFile file recs)
    (hrecs : Signable L recs) {c : Link} (hreach : Flashing C L s msg file c)
    (hstuck : Stuck (tool C) (bootloader L) c) : Agreed uECCVerify C L recs c := by
  have hprog : ∀ k d out, Synced C L s msg file k d out → Progress C L recs k d out :=
    fun _ _ _ => synced_progress hs hfile hrecs
  obtain ⟨hact, hdown, d, is, hsync, hrun⟩ := stuck_sync (tool_quiet C)
    (bootloader_polite C L s msg file) Rcv.byte_surjective
    (fun k d is hsync hne => (hprog k d _ hsync).answered hrecs rfl hne) hreach hstuck
  have hfinal := hprog _ _ _ hsync
  obtain ⟨h, d', up, down⟩ := c
  by_cases hw : h.Waiting
  · -- the reply is on its way
    have hreply := (hfinal.reply hrecs hw rfl).1
    rw [hrun, hdown hw] at hreply
    cases hreply
  generalize hout : is.map (bootloader L).sym = out at hfinal
  cases hfinal with
  | waitData | waitSize | waitSignat => exact absurd trivial hw
  | reading => exact absurd hact hostAct_reading
  | @returned v d himg hready hst hsig =>
    obtain ⟨-, hflash⟩ := hready.stop (L := L) hout
    rw [hrun] at hflash
    dsimp only at hflash
    have hsized : Sized L d'.nvm.flash := by
      rw [Sized, hflash, hst.size]
      exact ⟨hrecs.total, hrecs.length_image⟩
    have hhashed : hashedBytes L (.powerUp d'.nvm.flash) = v.fwHash := by
      rw [hashedBytes_eq (s := .powerUp d'.nvm.flash) hsized]
      show Buf.toList (originalHead d'.nvm.flash) (storedSize L d'.nvm.flash) = v.fwHash
      rw [hflash, hst.size, hst.held.toList, himg.hash]
    refine ⟨rfl, himg.hash, hhashed, ?_, ?_, ?_⟩
    · rw [hflash, hst.size, himg.size]
    · rw [hflash, hsig]
    · rw [signatureValid_eq, hhashed, ← hsha]
      show uECCVerify ecPubKey _ (storedSignat L d'.nvm.flash) = _
      rw [hflash, hsig]

/-- **Host and bootloader agree on what is signed.** For every HEX file whose records can be signed,
a session of the tool and the bootloader ends, in whatever order the link's two ends take their
steps, and where it ends the bytes `signature_valid` hashes are the bytes the tool hashed, the image
of the file; the size and the signature in flash are the tool's, and the image is accepted exactly
if `uECC_verify` accepts the tool's signature on the tool's digest. -/
theorem host_and_bootloader_agree (C : HostCrypto) (L : Layout)
    (uECCVerify : List UInt8 → List UInt8 → List UInt8 → Bool) (s : Nvm) (msg : Nat → UInt8)
    (file : List Line) (recs : List (Nat × List UInt8))
    (hsha : ∀ bytes, C.sha256 bytes = sha256 bytes) (hs : s.Idle) (hfile : HexFile file recs)
    (hrecs : Signable L recs) :
    (∀ run : Nat → Link, Flashing C L s msg file (run 0) →
      ∃ n, ¬ Step (tool C) (bootloader L) (run n) (run (n + 1))) ∧
    ∀ c, Flashing C L s msg file c → Stuck (tool C) (bootloader L) c →
      Agreed uECCVerify C L recs c := by
  refine ⟨fun run _ => ?_, fun c hreach hstuck => stuck_agreed hsha hs hfile hrecs hreach hstuck⟩
  have : IsWellFounded Link fun c' c => Step (tool C) (bootloader L) c c' :=
    ⟨tool_step_wf C (bootloader L)⟩
  exact WellFounded.not_rel_apply_succ (r := fun c' c => Step (tool C) (bootloader L) c c') run

/-- Two records of 32 bytes, the first with a `GOTO` of zeros. -/
def sampleRecords : List HexRecord := [
  { byteRecord with
    data := List.replicate 4 0 ++ List.replicate 4 0xFF ++ List.replicate 24 0
    length_lt := by decide, length_ext := nofun },
  { byteRecord with
    offset := 32, data := List.replicate 32 0
    offset_lt := by decide, length_lt := by decide, length_ext := nofun },
  eofRecord]

/-- A tool whose private key is 1, as it signs the image of those records. -/
def sampleCrypto : HostCrypto where
  sha256 := sha256
  signDigest _ := [
    0xbc, 0xaa, 0x9c, 0x19, 0x50, 0xbf, 0xce, 0x62, 0x4c, 0x69, 0x15, 0xb1, 0x21, 0x09,
    0x05, 0x25, 0xd5, 0x6a, 0x5b, 0x3c, 0xe8, 0xd5, 0x7c, 0xb2, 0x4c, 0x55, 0xf1, 0x87,
    0x6e, 0x17, 0x67, 0x52, 0xdf, 0x43, 0x62, 0x4d, 0x80, 0x9a, 0x7c, 0xd2, 0xfc, 0x31,
    0xd7, 0x1a, 0x4b, 0x3f, 0xf3, 0xf5, 0xf3, 0xe3, 0x36, 0x32, 0x8f, 0x50, 0x7d, 0x0c,
    0x3e, 0xb4, 0x50, 0xbd, 0x2e, 0xe2, 0xcf, 0x01]
  length_signDigest _ := rfl

theorem sampleRecords_signable : Signable pic18f25k22 (flashable 0 false sampleRecords) where
  length := by decide
  ascending := by decide
  first := by
    refine ⟨_, _, rfl, by decide, fun k b h4 h8 hk => ?_, by decide⟩
    obtain rfl | rfl | rfl | rfl : k = 4 ∨ k = 5 ∨ k = 6 ∨ k = 7 := by omega
    all_goals exact (Option.some.inj hk).symm
  below := by decide
  total := by decide

/-- The device's own key does not verify that signature. -/
theorem sampleRecords_agree : ∃ c,
    Flashing sampleCrypto pic18f25k22 (.powerUp vectorFlash) (fun _ => 0)
      (sampleRecords.map HexRecord.toLine) c ∧
    hashedBytes pic18f25k22 (.powerUp c.server.nvm.flash) =
      image (flashable 0 false sampleRecords) := by
  obtain ⟨c, hreach, hstuck⟩ := exists_stuck
    (tool_step_wf sampleCrypto (bootloader pic18f25k22))
    ⟨hostStart _, sessionStart pic18f25k22 (.powerUp vectorFlash) fun _ => 0, [], []⟩
  have hfile := hexFile_records sampleRecords ⟨sampleRecords[2], by simp [sampleRecords], rfl⟩
  have hagreed := (host_and_bootloader_agree sampleCrypto pic18f25k22 (fun _ _ _ => false)
    (.powerUp vectorFlash) (fun _ => 0) _ _ (fun _ => rfl) (Nvm.idle_powerUp vectorFlash) hfile
    sampleRecords_signable).2 c hreach hstuck
  exact ⟨c, hreach, hagreed.hashed.trans hagreed.image⟩

end Pic18Boot
