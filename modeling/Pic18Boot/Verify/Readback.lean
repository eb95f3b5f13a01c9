import Pic18Boot.Verify.FlashData

/-! # What a success reply says about flash

The bytes a command carries read back after it exactly when they took: nothing is erased in a
session, so a byte reads back if flash had every bit of it left (`success_reads_back_iff`). -/

namespace Pic18Boot
open NorFlash

variable {L : Layout} {d : Device} {b : Rcv} {m : Msg} {s s' : Nvm} {f : Nat → UInt8}
  {status : FlashingStatus}

/-- A range of flash a command is for, and the bytes it carries there. -/
structure Target where
  addr : Nat
  count : Nat
  bytes : List UInt8

/-- The ranges of a command. What a record at address 0 has for 4..7 is not stored. -/
def Msg.targets (L : Layout) (m : Msg) : List Target :=
  let carried := m.received.drop hostMsgDataPayloadOffset
  if m.op = hostMsgProgramSize then [⟨L.codeSizeOffset, codeSizeBytes, m.received⟩]
  else if m.op = hostMsgProgramSignat then [⟨L.signatOffset, signatSize, m.received⟩]
  else if m.op = hostMsgFlashData then
    if dataAddr m.data = 0 then
      [⟨4, 4, carried.take 4⟩, ⟨8, (m.data 0).toNat - 8, carried.drop 8⟩]
    else [⟨dataAddr m.data, (m.data 0).toNat, carried⟩]
  else []

/-- Reading the range, which is in program memory, returns the bytes. -/
def Target.Reads (L : Layout) (s : Nvm) (t : Target) : Prop :=
  t.addr + t.count ≤ L.mem ∧
    Buf.toList (readFlash t.addr (fun _ => 0) t.count s).1 t.count = t.bytes

/-- There are as many bytes as the range has, and flash has every bit they set left. -/
def Target.Takes (L : Layout) (f : Nat → UInt8) (t : Target) : Prop :=
  t.addr + t.count ≤ L.mem ∧ t.bytes.length = t.count ∧
    ∀ k v, t.bytes[k]? = some v → f (t.addr + k) &&& v = v

/-- Erased flash takes anything. -/
theorem Target.takes_erased {t : Target} (hmem : t.addr + t.count ≤ L.mem)
    (hlen : t.bytes.length = t.count) (hf : ∀ k < t.count, f (t.addr + k) = blank) :
    t.Takes L f := by
  refine ⟨hmem, hlen, fun k v hk => ?_⟩
  have hlt := (List.getElem?_eq_some_iff.mp hk).1
  rw [hf k (by omega)]
  exact blank_and v

theorem flashBytes_eq {addr n : Nat} (h : addr + n ≤ 2 ^ 22) :
    flashBytes f addr n = Buf.toList (fun k => f (addr + k)) n :=
  Buf.toList_congr fun k hk => by rw [Nat.mod_eq_of_lt (by omega)]

/-- Bytes conjoined into a range read back exactly when it takes them. -/
theorem Target.reads_iff {t : Target} (h : t.addr + t.count ≤ L.mem → t.bytes.length = t.count →
      ∀ k v, t.bytes[k]? = some v → s'.flash (t.addr + k) = f (t.addr + k) &&& v) :
    t.Reads L s' ↔ t.Takes L f := by
  refine and_congr_right fun hmem => ?_
  have hle := L.mem_le
  rw [readFlash_toList, flashBytes_eq (by omega)]
  constructor
  · intro hread
    have hlen : t.bytes.length = t.count := by rw [← hread, Buf.length_toList]
    refine ⟨hlen, fun k v hk => ?_⟩
    have hlt := (List.getElem?_eq_some_iff.mp hk).1
    have hv := hk
    rw [← hread, Buf.getElem?_toList (by omega), Option.some.injEq, h hmem hlen k v hk] at hv
    exact hv
  · rintro ⟨hlen, htake⟩
    refine Buf.toList_eq_of_getElem? hlen fun k hk => ?_
    obtain ⟨v, hv⟩ : ∃ v, t.bytes[k]? = some v := ⟨_, List.getElem?_eq_getElem (by omega)⟩
    rw [h hmem hlen k v hv, htake k v hv, hv]

theorem program_writeMask {mem addr n k : Nat} {buf : Nat → UInt8} (h : addr + n ≤ mem)
    (hmem : mem ≤ 2 ^ 22) (hk : k < n) :
    program f (writeMask mem addr buf n) (addr + k) = f (addr + k) &&& buf k := by
  rw [program_apply, writeMask_eq h hmem, if_pos (by omega), Nat.add_sub_cancel_left]

/-- The carried bytes of a flash-data message. -/
theorem Msg.payload_of_carried {k : Nat} {v : UInt8}
    (h : (m.received.drop hostMsgDataPayloadOffset)[k]? = some v) : payload m.data k = v := by
  rw [List.getElem?_drop] at h
  exact m.data_of_received rfl h

/-- What a command that is carried out leaves in its ranges. -/
theorem messageHandle_target (hacc : Accepted L m.op m.data m.len) (hs : s.Idle) {t : Target}
    (ht : t ∈ m.targets L) (hmem : t.addr + t.count ≤ L.mem) (hlen : t.bytes.length = t.count)
    {k : Nat} {v : UInt8} (hk : t.bytes[k]? = some v) :
    (messageHandle L m.op m.data m.len s).2.flash (t.addr + k) = s.flash (t.addr + k) &&& v := by
  have hle := L.mem_le
  have hlt : k < t.count := hlen ▸ (List.getElem?_eq_some_iff.mp hk).1
  rcases hacc with ⟨hop, hcount⟩ | ⟨hop, hcount⟩ | ⟨hop, hfive, hd⟩
  · rw [Msg.targets, if_pos hop] at ht
    obtain rfl := List.mem_singleton.mp ht
    rw [hop, messageHandle_size hcount, writeFlash_flash hs,
      program_writeMask hmem (by omega) hlt, m.data_of_received rfl hk]
  · rw [Msg.targets, if_neg (by rw [hop]; decide), if_pos hop] at ht
    obtain rfl := List.mem_singleton.mp ht
    rw [hop, messageHandle_signat hcount, writeFlash_flash hs,
      program_writeMask hmem (by omega) hlt, m.data_of_received rfl hk]
  · rw [Msg.targets, if_neg (by rw [hop]; decide), if_neg (by rw [hop]; decide), if_pos hop] at ht
    rw [hop, messageHandle_data hfive hd]
    split at ht
    · next h0 =>
      have hge := L.mem_ge
      have hcount := (m.data 0).toNat_lt
      rw [(flashData_relocate hs h0).flash, ← program_program]
      rcases List.mem_cons.mp ht with rfl | ht
      · -- the second write is above the first range
        rw [program_spared (writeMask_spared fun j hj => by dsimp only at hlt ⊢; omega),
          program_writeMask hmem (by omega) hlt,
          Msg.payload_of_carried (List.getElem?_take_of_lt hlt ▸ hk)]
      · obtain rfl := List.mem_singleton.mp ht
        have hfirst : program s.flash (writeMask L.mem 4 (payload m.data) 4) (8 + k) =
            s.flash (8 + k) := program_spared (writeMask_spared fun j hj => by omega)
        have hbyte : m.data (hostMsgDataPayloadOffset + 8 + k) = v := by
          rw [Nat.add_assoc]
          rw [List.getElem?_drop] at hk
          exact Msg.payload_of_carried hk
        dsimp only
        rw [program_writeMask hmem (by omega) hlt, hfirst, hbyte]
    · next h0 =>
      obtain rfl := List.mem_singleton.mp ht
      rw [(flashData_data hs h0).flash, program_writeMask hmem (by omega) hlt,
        Msg.payload_of_carried hk]

/-- The command's bytes read back. -/
def Msg.ReadsBack (L : Layout) (s : Nvm) (m : Msg) : Prop := ∀ t ∈ m.targets L, t.Reads L s

/-- Flash takes the command's bytes. -/
def Msg.Takes (L : Layout) (f : Nat → UInt8) (m : Msg) : Prop := ∀ t ∈ m.targets L, t.Takes L f

theorem Msg.readsBack_iff (hacc : Accepted L m.op m.data m.len) (hs : s.Idle) :
    m.ReadsBack L (messageHandle L m.op m.data m.len s).2 ↔ m.Takes L s.flash :=
  forall₂_congr fun _ ht => Target.reads_iff fun hmem hlen _ _ hk =>
    messageHandle_target hacc hs ht hmem hlen hk

/-! ## Along a session -/

/-- The byte completes a frame in which `fw_receive` finds the message. -/
def Device.Receives (d : Device) (b : Rcv) (m : Msg) : Prop :=
  d.running = true ∧ ∃ rx len, rxByte d.rx b.byte = (rx, .frame len) ∧ m = rx.call b.ram len

theorem Device.Receives.react (h : d.Receives b m) :
    ∃ rx, fwReceiveByte L d b = handleFrame L d.nvm rx b.ram m := by
  obtain ⟨hrun, rx, len, hbyte, rfl⟩ := h
  refine ⟨rx, ?_⟩
  rw [fwReceiveByte, if_neg (by simp [hrun]), hbyte]

theorem receives_of_handled (h : (fwReceiveByte L d b).2.handled = some (m, status)) :
    d.Receives b m := by
  unfold fwReceiveByte at h
  split at h
  · cases h
  next hrun =>
  split at h
  · cases h
  · cases h
  · next rx len hbyte =>
    rw [handleFrame_handled] at h
    cases h
    exact ⟨by simpa using hrun, rx, len, hbyte, rfl⟩

/-- If the byte completes a command that is answered `F`, the command's bytes read back. -/
def Confirmed (L : Layout) (d : Device) (b : Rcv) : Prop :=
  Handles (fun m _ => (fwReceiveByte L d b).2.sent = [mcuMsgOpSuccess] →
    m.ReadsBack L (fwReceiveByte L d b).1.nvm) (fwReceiveByte L d b).2

/-- The command the byte completes, if there is one: when it will be carried out, flash takes its
bytes; when it is denied under a byte after `mcu_errs` that says `F`, flash has them already. -/
def Writable (L : Layout) (d : Device) (b : Rcv) : Prop :=
  ∀ m, d.Receives b m → (Accepted L m.op m.data m.len → m.Takes L d.nvm.flash) ∧
    (m.op = hostMsgFlashData → 5 ≤ m.len → DeniedAddr L m.data →
      b.ram.afterErrs 0 = mcuMsgOpSuccess → m.ReadsBack L d.nvm)

theorem MessageCase.denied_of {op : UInt8} {data mask : Nat → UInt8} {len : Nat}
    (h : MessageCase L op data len .errDeniedAddr mask) :
    op = hostMsgFlashData ∧ 5 ≤ len ∧ DeniedAddr L data := by
  cases h with
  | denied hop hlen hd => exact ⟨hop, hlen, hd⟩

theorem confirmed_iff (hs : d.nvm.Idle) : Confirmed L d b ↔ Writable L d b := by
  constructor
  · intro h m hm
    obtain ⟨rx, hreact⟩ := hm.react (L := L)
    rw [Confirmed, hreact] at h
    have hread := h m _ handleFrame_handled
    rw [handleFrame_sent, handleFrame_nvm] at hread
    refine ⟨fun hacc => ?_, fun hop hlen hd hram => ?_⟩
    · rw [messageHandle_noErr.mpr hacc] at hread
      exact (Msg.readsBack_iff hacc hs).mp (hread rfl)
    · rw [hop, messageHandle_denied hlen hd, hram] at hread
      exact hread rfl
  · intro h m status hhandled
    have hm := receives_of_handled hhandled
    obtain ⟨htakes, hdenied⟩ := h m hm
    obtain ⟨rx, hreact⟩ := hm.react (L := L)
    rw [hreact, handleFrame_sent, handleFrame_nvm]
    obtain ⟨mask, hcase, -⟩ := messageHandle_cases L m.op m.data m.len d.nvm
    intro hsent
    cases hst : (messageHandle L m.op m.data m.len d.nvm).1 with
    | noErr =>
      have hacc := messageHandle_noErr.mp hst
      exact (Msg.readsBack_iff hacc hs).mpr (htakes hacc)
    | flashingDone | errInvalidPayload =>
      rw [hst] at hsent
      exact absurd (List.singleton_inj.mp hsent) (by decide)
    | errDeniedAddr =>
      rw [hst] at hcase hsent
      obtain ⟨hop, hlen, hd⟩ := hcase.denied_of
      have hread := hdenied hop hlen hd (List.singleton_inj.mp hsent)
      rw [hop, messageHandle_denied hlen hd]
      exact hread

theorem deviceFeed_idle {rs : List Rcv} (hs : d.nvm.Idle) : (deviceFeed L d rs).1.nvm.Idle := by
  induction rs generalizing d with
  | nil => exact hs
  | cons b rs ih => exact ih (fwReceiveByte_idle hs)

/-- **A success reply means the data is in flash**, exactly for the sessions in which flash takes
the bytes of every command that is carried out. -/
theorem success_reads_back_iff (L : Layout) (s : Nvm) (msg : Nat → UInt8) (rs : List Rcv)
    (hs : s.Idle) :
    (∀ p b, p ++ [b] <+: rs → Confirmed L (deviceFeed L (sessionStart L s msg) p).1 b) ↔
      ∀ p b, p ++ [b] <+: rs → Writable L (deviceFeed L (sessionStart L s msg) p).1 b :=
  forall₃_congr fun _ _ _ => confirmed_iff (deviceFeed_idle (sessionStart_idle hs))

/-- A record of one byte at 0x100. -/
theorem byteRecord_targets {v : UInt8} (hm : Carries m hostMsgFlashData [1, 0, 1, 0, v]) :
    Accepted pic18f25k22 m.op m.data m.len ∧ m.targets pic18f25k22 = [⟨0x100, 1, [v]⟩] := by
  obtain ⟨hcount, haddr, -⟩ := m.record_of_received hm.received
  have haddr : dataAddr m.data = 0x100 := haddr
  have hne : dataAddr m.data ≠ 0 := by
    rw [haddr]
    decide
  constructor
  · refine .inr (.inr ⟨hm.op, by rw [hm.len]; exact Nat.le_refl 5, ?_⟩)
    rw [DeniedAddr, haddr, hcount]
    decide
  · rw [Msg.targets, hm.op, if_neg (by decide), if_neg (by decide), if_pos rfl, if_neg hne, haddr,
      hcount, hm.received]
    rfl

theorem first_record_reads_back : ∃ p b,
    p ++ [b] = received (encodeForUart [hostMsgFlashData, 1, 0, 1, 0, 0x5A]) ∧
      Confirmed pic18f25k22 (deviceFeed pic18f25k22
        (sessionStart pic18f25k22 (.powerUp vectorFlash) fun _ => 0) p).1 b := by
  have hidle := Nvm.idle_powerUp vectorFlash
  obtain ⟨p, b, m, rx, ram, his, hm, hquiet, hlast⟩ :=
    (ready_sessionStart (L := pic18f25k22) (fun _ => 0) hidle).last
      (show [1, 0, 1, 0, 0x5A].length ≤ 67 by decide) received_byte
  obtain ⟨hacc, htargets⟩ := byteRecord_targets hm
  refine ⟨p, b, his.symm, ?_⟩
  apply (success_reads_back_iff pic18f25k22 _ _ (p ++ [b]) hidle).mpr ?_ p b (List.prefix_refl _)
  intro p' b' hp' m' hm'
  rcases List.prefix_concat_iff.mp hp' with heq | hp
  · obtain ⟨rfl, hb⟩ := List.append_inj' heq rfl
    obtain rfl := List.singleton_inj.mp hb
    obtain ⟨rx', hreact⟩ := hm'.react (L := pic18f25k22)
    have hhandled := congrArg (Reaction.handled ∘ Prod.snd) (hreact.symm.trans hlast)
    simp only [Function.comp_apply, handleFrame_handled, Option.some.injEq, Prod.mk.injEq]
      at hhandled
    obtain ⟨rfl, -⟩ := hhandled
    refine ⟨fun _ t ht => ?_, fun hop _ hd => ?_⟩
    · rw [htargets] at ht
      obtain rfl := List.mem_singleton.mp ht
      refine Target.takes_erased (by decide) rfl fun k hk => ?_
      obtain rfl : k = 0 := Nat.lt_one_iff.mp hk
      rw [deviceFeed_quiet hquiet]
      exact eraseFlash_erased rfl (by decide) (by decide) hidle (by decide) (by decide)
    · rcases hacc with ⟨h, -⟩ | ⟨h, -⟩ | ⟨-, -, h⟩
      · exact absurd (hop.symm.trans h) (by decide)
      · exact absurd (hop.symm.trans h) (by decide)
      · exact absurd hd h
  · have hmem := List.mem_of_getElem? (getElem?_deviceFeed (L := pic18f25k22)
      (d := sessionStart pic18f25k22 (.powerUp vectorFlash) fun _ => 0) hp)
    obtain ⟨rx', hreact⟩ := hm'.react (L := pic18f25k22)
    have hnone := hquiet _ hmem
    rw [hreact, handleFrame_handled] at hnone
    cases hnone

/-- A byte that flash has cleared is not confirmed when bits of it are to be set. -/
theorem cleared_record_lost (H : Ready d) (h0 : d.nvm.flash 0x100 = 0) : ∃ p b,
    p ++ [b] = received (encodeForUart [hostMsgFlashData, 1, 0, 1, 0, 0xFF]) ∧
      ¬ Confirmed pic18f25k22 (deviceFeed pic18f25k22 d p).1 b := by
  obtain ⟨p, b, m, rx, ram, his, hm, -, hlast⟩ := H.last (L := pic18f25k22)
    (show [1, 0, 1, 0, 0xFF].length ≤ 67 by decide) received_byte
  obtain ⟨hacc, htargets⟩ := byteRecord_targets hm
  refine ⟨p, b, his.symm, fun hconf => ?_⟩
  rw [Confirmed, hlast] at hconf
  have hread := hconf m _ handleFrame_handled
  rw [handleFrame_sent, messageHandle_noErr.mpr hacc, handleFrame_nvm] at hread
  have htakes := (Msg.readsBack_iff hacc H.idle).mp (hread rfl) ⟨0x100, 1, [0xFF]⟩
    (htargets ▸ List.mem_singleton.mpr rfl)
  have hbit := htakes.2.2 0 0xFF rfl
  dsimp only at hbit
  rw [Nat.add_zero, h0] at hbit
  exact absurd hbit (by decide)

/-- A byte sent again with bits set that the first write cleared. -/
theorem rewritten_record_lost : ¬ ∀ p b,
    p ++ [b] <+: received (encodeForUart [hostMsgFlashData, 1, 0, 1, 0, 0] ++
      encodeForUart [hostMsgFlashData, 1, 0, 1, 0, 0xFF]) →
    Confirmed pic18f25k22 (deviceFeed pic18f25k22
      (sessionStart pic18f25k22 (.powerUp vectorFlash) fun _ => 0) p).1 b := by
  intro h
  have hready := ready_sessionStart (L := pic18f25k22) (fun _ => 0)
    (Nvm.idle_powerUp vectorFlash)
  have hframe : (received (encodeForUart [hostMsgFlashData, 1, 0, 1, 0, 0])).map Rcv.byte =
      encodeForUart [hostMsgFlashData, 1, 0, 1, 0, 0] := received_byte
  obtain ⟨m, hm, -, hready', hnvm⟩ := hready.accepted (L := pic18f25k22)
    (show [1, 0, 1, 0, 0].length ≤ 67 by decide) hframe fun m hm => by
      have hacc := (byteRecord_targets hm).1
      rwa [hm.op] at hacc
  obtain ⟨hacc, htargets⟩ := byteRecord_targets hm
  have hcleared := messageHandle_target hacc hready.idle (t := ⟨0x100, 1, [0]⟩)
    (htargets ▸ List.mem_singleton.mpr rfl) (by decide) rfl (k := 0) rfl
  rw [hm.op, ← hnvm, UInt8.and_zero] at hcleared
  obtain ⟨p, b, hlast, hlost⟩ := cleared_record_lost hready' hcleared
  apply hlost
  have hall : received (encodeForUart [hostMsgFlashData, 1, 0, 1, 0, 0]) ++ p ++ [b] =
      received (encodeForUart [hostMsgFlashData, 1, 0, 1, 0, 0] ++
        encodeForUart [hostMsgFlashData, 1, 0, 1, 0, 0xFF]) := by
    rw [List.append_assoc, hlast, received_append]
  have hconf := h (received (encodeForUart [hostMsgFlashData, 1, 0, 1, 0, 0]) ++ p) b
    (hall ▸ List.prefix_refl _)
  rw [deviceFeed_append] at hconf
  rw [bootloader_run]
  exact hconf

end Pic18Boot
