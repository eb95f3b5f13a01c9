import Pic18Boot.Verify.Deadlock
import Pic18Boot.Verify.Image
import Pic18Boot.Verify.Session

/-! # The device carries out a command

What one frame of the tool does to a device that is between two frames of a session: a record
extends the image in flash (`Ready.data`), the size and the signature go to erased metadata
(`Ready.size`, `Ready.signat`), and the end of the session leaves flash alone (`Ready.stop`). -/

namespace Pic18Boot
open Dialogue NorFlash

variable {L : Layout} {d : Device} {is : List Rcv} {op : UInt8}
  {args img sig : List UInt8} {f : Nat → UInt8} {n : Nat}

/-- The device between two frames of a session. -/
structure Ready (d : Device) : Prop where
  running : d.running = true
  escaped : d.rx.escaped = false
  idle : d.nvm.Idle

theorem ready_sessionStart {s : Nvm} (msg : Nat → UInt8) (hs : s.Idle) :
    Ready (sessionStart L s msg) := ⟨rfl, rfl, sessionStart_idle hs⟩

/-- The message is the frame `op :: args`. -/
structure Carries (m : Msg) (op : UInt8) (args : List UInt8) : Prop where
  op : m.op = op
  len : m.len = args.length
  received : m.received = args

/-- What the device does with a frame that fits. -/
theorem Ready.frame (H : Ready d) (hlen : args.length ≤ 67)
    (his : is.map Rcv.byte = encodeForUart (op :: args)) :
    ∃ m rx ram, Carries m op args ∧ rx.escaped = false ∧
      (bootloader L).run d is =
        ((handleFrame L d.nvm rx ram m).1, (handleFrame L d.nvm rx ram m).2.sent) := by
  obtain ⟨n, rx, ram, m, hop, hmlen, hrec, -, hesc, hfeed⟩ :=
    deviceFeed_frame (L := L) H.running H.escaped hlen his
  refine ⟨m, rx, ram, ⟨hop, hmlen, hrec⟩, hesc, ?_⟩
  rw [bootloader_run, hfeed, List.flatMap_append, sent_quiet, List.nil_append,
    List.flatMap_singleton]

/-- The frame is handed to `message_handle`. -/
theorem Ready.handled (H : Ready d) (op : UInt8) (args : List UInt8) (hlen : args.length ≤ 67)
    (his : is.map Rcv.byte = encodeForUart (op :: args)) :
    ∃ m, Carries m op args ∧ ∃ x ∈ (deviceFeed L d is).2,
      x.handled = some (m, (messageHandle L m.op m.data m.len d.nvm).1) := by
  obtain ⟨n, rx, ram, m, hop, hmlen, hrec, -, -, hfeed⟩ :=
    deviceFeed_frame (L := L) H.running H.escaped hlen his
  refine ⟨m, ⟨hop, hmlen, hrec⟩, (handleFrame L d.nvm rx ram m).2, ?_, handleFrame_handled⟩
  rw [hfeed]
  exact List.mem_append_right _ (List.mem_singleton.mpr rfl)

/-- The last byte of the frame calls `message_handle`, and no byte before it does. -/
theorem Ready.last (H : Ready d) (hlen : args.length ≤ 67)
    (his : is.map Rcv.byte = encodeForUart (op :: args)) :
    ∃ p b m rx ram, is = p ++ [b] ∧ Carries m op args ∧
      (∀ x ∈ (deviceFeed L d p).2, x.handled = none) ∧
      fwReceiveByte L (deviceFeed L d p).1 b = handleFrame L d.nvm rx ram m := by
  obtain ⟨n, rx, ram, m, hop, hmlen, hrec, -, -, hfeed⟩ :=
    deviceFeed_frame (L := L) H.running H.escaped hlen his
  rcases List.eq_nil_or_concat is with rfl | ⟨p, b, rfl⟩
  · exact absurd (congrArg (List.length ∘ Prod.snd) hfeed) (by simp)
  rw [List.concat_eq_append, deviceFeed_append] at hfeed
  obtain ⟨hstate, hreacts⟩ := Prod.mk.inj hfeed
  obtain ⟨hquiet, hlast⟩ := List.append_inj' hreacts rfl
  refine ⟨p, b, m, rx, ram, List.concat_eq_append, ⟨hop, hmlen, hrec⟩, ?_, ?_⟩
  · intro x hx
    rw [hquiet] at hx
    rw [(List.mem_replicate.mp hx).2]
  · exact Prod.ext hstate (List.singleton_inj.mp hlast)

/-- A command that is carried out is answered `F`, and the session goes on. -/
theorem Ready.accepted (H : Ready d) (hlen : args.length ≤ 67)
    (his : is.map Rcv.byte = encodeForUart (op :: args))
    (hacc : ∀ m, Carries m op args → Accepted L op m.data m.len) :
    ∃ m, Carries m op args ∧ ((bootloader L).run d is).2 = [mcuMsgOpSuccess] ∧
      Ready ((bootloader L).run d is).1 ∧
      ((bootloader L).run d is).1.nvm = (messageHandle L op m.data m.len d.nvm).2 := by
  obtain ⟨m, rx, ram, hm, hesc, hrun⟩ := H.frame (L := L) hlen his
  have hok : Accepted L m.op m.data m.len := by
    rw [hm.op]
    exact hacc m hm
  refine ⟨m, hm, ?_, ⟨?_, ?_, ?_⟩, ?_⟩
  · rw [hrun, handleFrame_sent, messageHandle_noErr.mpr hok]
  · rw [hrun]
    exact handleFrame_running.mpr hok
  · rw [hrun, handleFrame_rx]
    exact hesc
  · rw [hrun, handleFrame_nvm]
    exact messageHandle_idle H.idle
  · rw [hrun, handleFrame_nvm, hm.op]

/-- The end of the session is answered and leaves flash alone. -/
theorem Ready.stop (H : Ready d) (his : is.map Rcv.byte = stopMsg) :
    ((bootloader L).run d is).2 = [mcuErrInvalidPayload] ∧
      ((bootloader L).run d is).1.nvm = d.nvm := by
  have hstop : is.map Rcv.byte = encodeForUart [hostMsgFlashStop] := his
  obtain ⟨m, rx, ram, hm, -, hrun⟩ := H.frame (L := L) (by decide) hstop
  have hstop : messageHandle L m.op m.data m.len d.nvm = (.flashingDone, d.nvm) := by
    rw [hm.op, hm.len]
    rfl
  constructor
  · rw [hrun, handleFrame_sent, hstop]
  · rw [hrun, handleFrame_nvm, hstop]

/-- Three bytes carry a 24-bit number. -/
theorem threeBytes_toNat (hn : n < 2 ^ 24) : (UInt8.ofNat (n >>> 16)).toNat * 65536 +
    (UInt8.ofNat (n >>> 8)).toNat * 256 + (UInt8.ofNat n).toNat = n := by
  simp only [UInt8.toNat_ofNat', Nat.shiftRight_eq_div_pow]
  omega

variable {m : Msg} {rec : Nat × List UInt8}

/-- The payload of a record's frame. -/
def recordArgs (rec : Nat × List UInt8) : List UInt8 :=
  UInt8.ofNat rec.2.length :: (threeBytes rec.1 ++ rec.2)

theorem Carries.record (hm : Carries m op (recordArgs rec)) (hlen : rec.2.length ≤ 63)
    (haddr : rec.1 < 2 ^ 24) : (m.data 0).toNat = rec.2.length ∧ dataAddr m.data = rec.1 ∧
      ∀ k b, rec.2[k]? = some b → payload m.data k = b := by
  obtain ⟨hcount, hat, hdata⟩ := m.record_of_received hm.received
  refine ⟨?_, hat.trans (threeBytes_toNat haddr), hdata⟩
  rw [hcount, UInt8.toNat_ofNat', Nat.mod_eq_of_lt (by omega)]

/-- A record the tool may flash on top of the image. -/
inductive Follows (img : List UInt8) : Nat × List UInt8 → Prop
  | first {data} : img = [] → 4 ≤ data.length →
    (∀ k b, 4 ≤ k → k < 8 → data[k]? = some b → b = 0xFF) → Follows img (0, data)
  | next {addr data} : 4 ≤ img.length → 8 ≤ addr → img.length ≤ addr → Follows img (addr, data)

theorem Follows.le (h : Follows img rec) : img.length ≤ rec.1 := by
  cases h with
  | first hnil => simp [hnil]
  | next _ _ hle => exact hle

theorem Follows.flashData {s : Nvm} (h : Follows img rec) (hs : s.Idle) (H : ImageInv L img s.flash)
    (hend : recEnd rec < L.signatOffset) (hcount : (m.data 0).toNat = rec.2.length)
    (hat : dataAddr m.data = rec.1) (hdata : ∀ k b, rec.2[k]? = some b → payload m.data k = b) :
    ImageInv L (extendImage img rec) (flashData L m.data s).flash := by
  cases h with
  | @first data hnil h4 hff =>
    subst hnil
    have hend : data.length < L.signatOffset := by simpa [recEnd] using hend
    have himg : extendImage [] (0, data) = data := by simp [extendImage]
    rw [himg, (flashData_relocate hs hat).flash, hcount]
    have hbuf : (fun k => m.data (hostMsgDataPayloadOffset + 8 + k)) =
        fun k => payload m.data (8 + k) :=
      funext fun k => congrArg m.data (Nat.add_assoc ..)
    rw [hbuf]
    exact H.first h4 hff hend hdata
  | @next addr data h4 h8 hle =>
    have hne : dataAddr m.data ≠ 0 := by
      rw [hat]
      exact Nat.ne_of_gt (Nat.lt_of_lt_of_le (by decide) h8)
    rw [(flashData_data hs hne).flash, hat, hcount]
    exact H.next h4 h8 hle hend hdata

theorem Ready.data (H : Ready d) (hinv : ImageInv L img d.nvm.flash) (hrec : Follows img rec)
    (hlen : 1 ≤ rec.2.length ∧ rec.2.length ≤ 63) (hend : recEnd rec < L.signatOffset)
    (his : is.map Rcv.byte = encodeData rec.2 rec.2.length rec.1) :
    ((bootloader L).run d is).2 = [mcuMsgOpSuccess] ∧ Ready ((bootloader L).run d is).1 ∧
      ImageInv L (extendImage img rec) ((bootloader L).run d is).1.nvm.flash := by
  have hsig := L.signatOffset_lt
  have haddr : rec.1 + rec.2.length < L.signatOffset := hend
  have hfit : (recordArgs rec).length = rec.2.length + 4 := by simp [recordArgs, threeBytes]
  have hok : ∀ m, Carries m hostMsgFlashData (recordArgs rec) →
      5 ≤ m.len ∧ ¬ DeniedAddr L m.data := by
    intro m hm
    obtain ⟨hcount, hat, -⟩ := hm.record hlen.2 (by omega)
    refine ⟨by rw [hm.len]; omega, ?_⟩
    rw [DeniedAddr, hcount, hat]
    omega
  have hframe : is.map Rcv.byte = encodeForUart (hostMsgFlashData :: recordArgs rec) := his
  obtain ⟨m, hm, hreply, hready, hnvm⟩ := H.accepted (L := L) (by omega) hframe fun m hm =>
    .inr (.inr ⟨rfl, hok m hm⟩)
  obtain ⟨hcount, hat, hdata⟩ := hm.record hlen.2 (by omega)
  refine ⟨hreply, hready, ?_⟩
  rw [hnvm, messageHandle_data (hok m hm).1 (hok m hm).2]
  exact hrec.flashData H.idle hinv hend hcount hat hdata

/-- Flash holds the image and its size. -/
structure Stored (L : Layout) (img : List UInt8) (f : Nat → UInt8) : Prop where
  held : Holds f img
  size : storedSize L f = img.length

/-- The size is written to erased flash, and leaves the signature's place erased. -/
theorem Ready.size (H : Ready d) (hinv : ImageInv L img d.nvm.flash)
    (h64 : 64 ≤ img.length) (hle : img.length ≤ L.signatOffset)
    (his : is.map Rcv.byte = encodeSize img.length) :
    ((bootloader L).run d is).2 = [mcuMsgOpSuccess] ∧ Ready ((bootloader L).run d is).1 ∧
      Stored L img ((bootloader L).run d is).1.nvm.flash ∧
      ∀ k < 64, ((bootloader L).run d is).1.nvm.flash (L.signatOffset + k) = blank := by
  have hlt := L.signatOffset_lt
  have hsig := L.signatOffset_eq
  have hcode := L.codeSizeOffset_eq
  have hfit : (threeBytes img.length).length ≤ 67 := Nat.le_add_left 3 64
  obtain ⟨m, hm, hreply, hready, hnvm⟩ := H.accepted (L := L) hfit his fun m hm =>
    .inl ⟨rfl, hm.len⟩
  have hfree : ∀ a, img.length ≤ a → a < L.btldOffset → d.nvm.flash a = blank := fun a ha hlt =>
    hinv.erased a ha (.inl (by omega)) hlt
  have hflash : ((bootloader L).run d is).1.nvm.flash =
      program d.nvm.flash (writeMask L.mem L.codeSizeOffset m.data 3) := by
    rw [hnvm, messageHandle_size hm.len, writeFlash_flash H.idle]
  obtain ⟨hheld, hin, hout⟩ := hinv.held.metadata (L := L) m.data 3
    (show img.length ≤ L.codeSizeOffset by omega) (by omega) (by omega)
    fun k _ => hfree _ (by omega) (by omega)
  rw [hflash]
  refine ⟨hreply, hready, ⟨hheld, ?_⟩, fun k hk => ?_⟩
  · rw [storedSize, codeSize, hin 0 (by decide), hin 1 (by decide), hin 2 (by decide),
      m.data_of_received hm.received rfl, m.data_of_received hm.received rfl,
      m.data_of_received hm.received rfl, Nat.or_bytes (UInt8.toNat_lt _) (UInt8.toNat_lt _)]
    exact threeBytes_toNat (by omega)
  · rw [hout (L.signatOffset + k) (.inl (by omega))]
    exact hfree _ (by omega) (by omega)

theorem Ready.signat (H : Ready d) (hst : Stored L img d.nvm.flash)
    (h64 : 64 ≤ img.length) (hle : img.length ≤ L.signatOffset)
    (hfree : ∀ k < 64, d.nvm.flash (L.signatOffset + k) = blank) (hsig : sig.length = 64)
    (his : is.map Rcv.byte = encodeSignat sig) :
    ((bootloader L).run d is).2 = [mcuMsgOpSuccess] ∧ Ready ((bootloader L).run d is).1 ∧
      Stored L img ((bootloader L).run d is).1.nvm.flash ∧
      storedSignat L ((bootloader L).run d is).1.nvm.flash = sig := by
  have hoff := L.signatOffset_eq
  have hcode := L.codeSizeOffset_eq
  obtain ⟨m, hm, hreply, hready, hnvm⟩ := H.accepted (L := L) (by omega) his fun m hm =>
    .inr (.inl ⟨rfl, hm.len.trans hsig⟩)
  have hflash : ((bootloader L).run d is).1.nvm.flash =
      program d.nvm.flash (writeMask L.mem L.signatOffset m.data 64) := by
    rw [hnvm, messageHandle_signat (hm.len.trans hsig), writeFlash_flash H.idle]
  obtain ⟨hheld, hin, hout⟩ := hst.held.metadata (L := L) m.data 64 hle
    (by omega) (by omega) hfree
  have hkeep : ∀ k, _ := fun k => hout (L.codeSizeOffset + k) (.inr (by omega))
  rw [hflash]
  refine ⟨hreply, hready, ⟨hheld, ?_⟩, ?_⟩
  · rw [storedSize, codeSize, hkeep, hkeep, hkeep]
    exact hst.size
  · refine Buf.toList_eq_of_getElem? hsig fun k hk => ?_
    have hk : k < 64 := hk
    have hk' : k < sig.length := by omega
    rw [hin k hk, List.getElem?_eq_getElem hk',
      m.data_of_received hm.received (List.getElem?_eq_getElem hk')]

end Pic18Boot
