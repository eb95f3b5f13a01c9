import Pic18Boot.Model.Message
import Pic18Boot.Verify.WriteFlash

/-! # What `message_handle` does to flash

`messageHandle_cases` lists everything a call can do: its status, and the mask it programs. The
other results of this file, and those about whole sessions, are read off the list. -/

namespace Pic18Boot
open NorFlash

theorem dataAddr_eq (data : Nat → UInt8) : dataAddr data =
    (data 1).toNat * 65536 + (data 2).toNat * 256 + (data 3).toNat :=
  Nat.or_bytes (data 2).toNat_lt (data 3).toNat_lt

theorem dataAddr_lt (data : Nat → UInt8) : dataAddr data < 2 ^ 24 := by
  have h1 := (data 1).toNat_lt
  have h2 := (data 2).toNat_lt
  have h3 := (data 3).toNat_lt
  rw [dataAddr_eq]
  omega

/-- The messages that are carried out with `STATUS_NO_ERR`. -/
def Accepted (L : Layout) (op : UInt8) (data : Nat → UInt8) (len : Nat) : Prop :=
  op = hostMsgProgramSize ∧ len = codeSizeBytes ∨
    op = hostMsgProgramSignat ∧ len = signatSize ∨
    op = hostMsgFlashData ∧ 5 ≤ len ∧ ¬ DeniedAddr L data

/-- The data bytes of a `HOST_MSG_FLASH_DATA`. -/
def payload (data : Nat → UInt8) (k : Nat) : UInt8 := data (hostMsgDataPayloadOffset + k)

/-- What a call of `message_handle` can do: the status it returns and the mask it programs. -/
inductive MessageCase (L : Layout) (op : UInt8) (data : Nat → UInt8) (len : Nat) :
    FlashingStatus → (Nat → UInt8) → Prop
  | size : op = hostMsgProgramSize → len = codeSizeBytes →
    MessageCase L op data len .noErr (writeMask L.mem L.codeSizeOffset data codeSizeBytes)
  | signat : op = hostMsgProgramSignat → len = signatSize →
    MessageCase L op data len .noErr (writeMask L.mem L.signatOffset data signatSize)
  /-- A record at address 0: its first four bytes go to 4..7, those from the ninth on to 8. -/
  | relocate : op = hostMsgFlashData → 5 ≤ len → ¬ DeniedAddr L data → dataAddr data = 0 →
    MessageCase L op data len .noErr
      (program (writeMask L.mem 4 (payload data) 4)
        (writeMask L.mem 8 (fun k => data (hostMsgDataPayloadOffset + 8 + k)) ((data 0).toNat - 8)))
  | data : op = hostMsgFlashData → 5 ≤ len → ¬ DeniedAddr L data → dataAddr data ≠ 0 →
    MessageCase L op data len .noErr
      (writeMask L.mem (dataAddr data) (payload data) (data 0).toNat)
  | stop : op = hostMsgFlashStop → len = 0 →
    MessageCase L op data len .flashingDone fun _ => blank
  | denied : op = hostMsgFlashData → 5 ≤ len → DeniedAddr L data →
    MessageCase L op data len .errDeniedAddr fun _ => blank
  | invalid : MessageCase L op data len .errInvalidPayload fun _ => blank

variable {L : Layout} {op : UInt8} {data : Nat → UInt8} {len : Nat} {s : Nvm} {a : Nat}
  {status : FlashingStatus} {m : Nat → UInt8}

/-- A state reached from `s` by programming `m`, with nothing else changed that lasts. -/
structure Programmed (s : Nvm) (m : Nat → UInt8) (s' : Nvm) : Prop where
  flash : s'.flash = program s.flash m
  idle : s'.Idle
  pointers : saveTablePointers s' = saveTablePointers s

theorem Programmed.refl (hs : s.Idle) : Programmed s (fun _ => blank) s :=
  ⟨(program_blank_mask s.flash).symm, hs, rfl⟩

theorem Programmed.writeFlash {addr n : Nat} {buf : Nat → UInt8} (hs : s.Idle) :
    Programmed s (writeMask L.mem addr buf n) (writeFlash L.mem addr buf n s) :=
  ⟨writeFlash_flash hs, writeFlash_idle hs, saveTablePointers_writeFlash⟩

theorem Programmed.trans {s' s'' : Nvm} {m' : Nat → UInt8} (h : Programmed s m s')
    (h' : Programmed s' m' s'') : Programmed s (program m m') s'' :=
  ⟨by rw [h'.flash, h.flash, program_program], h'.idle, h'.pointers.trans h.pointers⟩

theorem flashData_relocate (hs : s.Idle) (h0 : dataAddr data = 0) :
    Programmed s (program (writeMask L.mem 4 (payload data) 4)
      (writeMask L.mem 8 (fun k => data (hostMsgDataPayloadOffset + 8 + k)) ((data 0).toNat - 8)))
      (flashData L data s) := by
  have hfirst : Programmed s _ (writeFlash L.mem 4 (payload data) 4 s) := .writeFlash hs
  unfold flashData
  simp only [h0, if_true]
  split
  · exact hfirst.trans (.writeFlash hfirst.idle)
  · next hle =>
    rw [show (data 0).toNat - 8 = 0 by omega]
    exact hfirst.trans (.refl hfirst.idle)

theorem flashData_data (hs : s.Idle) (h0 : dataAddr data ≠ 0) :
    Programmed s (writeMask L.mem (dataAddr data) (payload data) (data 0).toNat)
      (flashData L data s) := by
  unfold flashData
  simp only [if_neg h0]
  exact .writeFlash hs

/-- **Everything a call of `message_handle` can do.** -/
theorem messageHandle_cases (L : Layout) (op : UInt8) (data : Nat → UInt8) (len : Nat) (s : Nvm) :
    ∃ m, MessageCase L op data len (messageHandle L op data len s).1 m ∧
      (s.Idle → Programmed s m (messageHandle L op data len s).2) := by
  unfold messageHandle
  split
  · next hop =>
    split
    · exact ⟨_, .invalid, .refl⟩
    · next hlen => exact ⟨_, .size hop (Decidable.not_not.mp hlen), .writeFlash⟩
  split
  · next hop =>
    split
    · exact ⟨_, .invalid, .refl⟩
    · next hlen => exact ⟨_, .signat hop (Decidable.not_not.mp hlen), .writeFlash⟩
  split
  · next hop =>
    split
    · exact ⟨_, .invalid, .refl⟩
    next hlen =>
    split
    · next hd => exact ⟨_, .denied hop (Nat.not_lt.mp hlen) hd, .refl⟩
    next hd =>
    by_cases h0 : dataAddr data = 0
    · exact ⟨_, .relocate hop (Nat.not_lt.mp hlen) hd h0, fun hs => flashData_relocate hs h0⟩
    · exact ⟨_, .data hop (Nat.not_lt.mp hlen) hd h0, fun hs => flashData_data hs h0⟩
  split
  · next hop =>
    split
    · exact ⟨_, .invalid, .refl⟩
    · next hlen => exact ⟨_, .stop hop (by omega), .refl⟩
  · exact ⟨_, .invalid, .refl⟩

theorem messageHandle_idle (hs : s.Idle) : (messageHandle L op data len s).2.Idle := by
  obtain ⟨_, -, hp⟩ := messageHandle_cases L op data len s
  exact (hp hs).idle

/-! ## The status -/

theorem MessageCase.accepted (h : MessageCase L op data len .noErr m) : Accepted L op data len := by
  cases h with
  | size hop hlen => exact .inl ⟨hop, hlen⟩
  | signat hop hlen => exact .inr (.inl ⟨hop, hlen⟩)
  | relocate hop hlen hd _ | data hop hlen hd _ => exact .inr (.inr ⟨hop, hlen, hd⟩)

theorem messageHandle_size (h : len = codeSizeBytes) :
    messageHandle L hostMsgProgramSize data len s =
      (.noErr, writeFlash L.mem L.codeSizeOffset data codeSizeBytes s) := by
  rw [messageHandle, if_pos rfl, if_neg (not_not_intro h)]

theorem messageHandle_signat (h : len = signatSize) :
    messageHandle L hostMsgProgramSignat data len s =
      (.noErr, writeFlash L.mem L.signatOffset data signatSize s) := by
  rw [messageHandle, if_neg (by decide), if_pos rfl, if_neg (not_not_intro h)]

theorem messageHandle_data (hlen : 5 ≤ len) (hd : ¬ DeniedAddr L data) :
    messageHandle L hostMsgFlashData data len s = (.noErr, flashData L data s) := by
  rw [messageHandle, if_neg (by decide), if_neg (by decide), if_pos rfl,
    if_neg (Nat.not_lt.mpr hlen), if_neg hd]

theorem messageHandle_noErr :
    (messageHandle L op data len s).1 = .noErr ↔ Accepted L op data len := by
  constructor
  · intro h
    obtain ⟨_, hcase, -⟩ := messageHandle_cases L op data len s
    rw [h] at hcase
    exact hcase.accepted
  · rintro (⟨rfl, hlen⟩ | ⟨rfl, hlen⟩ | ⟨rfl, hlen, hd⟩)
    · rw [messageHandle_size hlen]
    · rw [messageHandle_signat hlen]
    · rw [messageHandle_data hlen hd]

/-! ## What a write can touch -/

theorem writeMask_touched {mem addr n : Nat} {buf : Nat → UInt8}
    (h : writeMask mem addr buf n a ≠ blank) : a < mem ∧ ∃ k < n, (addr + k) % 2 ^ 22 = a := by
  refine ⟨Nat.lt_of_not_le fun hle => h (writeMask_above hle), ?_⟩
  refine Decidable.byContradiction fun hne => h (writeMask_spared fun k hk heq => ?_)
  exact hne ⟨k, hk, heq⟩

/-- The 24-bit guard lets a record wrap past the top of the address space, but no byte of it lands
at or above the limit: the wrapped part is below it, the rest is above program memory. -/
theorem data_touched (hd : ¬ DeniedAddr L data)
    (h : writeMask L.mem (dataAddr data) (payload data) (data 0).toNat a ≠ blank) :
    a < L.signatOffset := by
  obtain ⟨ha, k, hk, hka⟩ := writeMask_touched h
  have hlimit : (dataAddr data + (data 0).toNat) % 2 ^ 24 < L.signatOffset := Nat.lt_of_not_le hd
  have hcount := (data 0).toNat_lt
  have haddr := dataAddr_lt data
  have hmem := L.mem_le
  have hsig := L.signatOffset_lt
  omega

theorem relocate_touched (hd : ¬ DeniedAddr L data) (h0 : dataAddr data = 0)
    (h : program (writeMask L.mem 4 (payload data) 4) (writeMask L.mem 8
      (fun k => data (hostMsgDataPayloadOffset + 8 + k)) ((data 0).toNat - 8)) a ≠ blank) :
    4 ≤ a ∧ a < L.signatOffset := by
  have hlimit : (dataAddr data + (data 0).toNat) % 2 ^ 24 < L.signatOffset := Nat.lt_of_not_le hd
  have hcount := (data 0).toNat_lt
  have hsig := L.signatOffset_ge
  by_cases h4 : writeMask L.mem 4 (payload data) 4 a = blank
  · rw [program_blank h4] at h
    obtain ⟨-, k, hk, hka⟩ := writeMask_touched h
    omega
  · obtain ⟨-, k, hk, hka⟩ := writeMask_touched h4
    omega

/-- The bytes each command may change. -/
theorem MessageCase.touched (h : MessageCase L op data len status m) (ha : m a ≠ blank) :
    status = .noErr ∧
      (op = hostMsgProgramSize ∧ L.codeSizeOffset ≤ a ∧ a < L.btldOffset ∨
        op = hostMsgProgramSignat ∧ L.signatOffset ≤ a ∧ a < L.codeSizeOffset ∨
        op = hostMsgFlashData ∧ a < L.signatOffset) := by
  have hbtld := L.codeSizeOffset_eq
  have hsig := L.signatOffset_eq
  have hlt := L.signatOffset_lt
  cases h with
  | size hop _ =>
    obtain ⟨-, k, hk, hka⟩ := writeMask_touched ha
    simp only [codeSizeBytes] at hk
    exact ⟨rfl, .inl ⟨hop, by omega, by omega⟩⟩
  | signat hop _ =>
    obtain ⟨-, k, hk, hka⟩ := writeMask_touched ha
    simp only [signatSize] at hk
    exact ⟨rfl, .inr (.inl ⟨hop, by omega, by omega⟩)⟩
  | relocate hop _ hd h0 => exact ⟨rfl, .inr (.inr ⟨hop, (relocate_touched hd h0 ha).2⟩)⟩
  | data hop _ hd _ => exact ⟨rfl, .inr (.inr ⟨hop, data_touched hd ha⟩)⟩
  | stop | denied | invalid => exact absurd rfl ha

/-- **Regions.** An error leaves flash as it was, a command changes only bytes of its own region,
and the table pointer comes back, for every address and count, wrapping ones included. -/
theorem messageHandle_regions (L : Layout) (op : UInt8) (data : Nat → UInt8) (len : Nat) (s : Nvm)
    (hs : s.Idle) :
    let r := messageHandle L op data len s
    (r.1 = .errInvalidPayload ∨ r.1 = .errDeniedAddr → r.2.flash = s.flash) ∧
    (op = hostMsgProgramSize → ∀ a, r.2.flash a ≠ s.flash a →
      L.btldOffset - 3 ≤ a ∧ a < L.btldOffset) ∧
    (op = hostMsgProgramSignat → ∀ a, r.2.flash a ≠ s.flash a →
      L.btldOffset - 67 ≤ a ∧ a < L.btldOffset - 3) ∧
    (op = hostMsgFlashData → ∀ a, r.2.flash a ≠ s.flash a → a < L.signatOffset) ∧
    saveTablePointers r.2 = saveTablePointers s := by
  intro r
  obtain ⟨m, hcase, hp⟩ := messageHandle_cases L op data len s
  replace hp := hp hs
  have htouched : ∀ a, r.2.flash a ≠ s.flash a → m a ≠ blank := by
    intro a hne hm
    exact hne (by rw [hp.flash, program_spared hm])
  have hbtld := L.codeSizeOffset_eq
  have hsig := L.signatOffset_eq
  refine ⟨fun herr => funext fun a => ?_, fun hop a hne => ?_, fun hop a hne => ?_,
    fun hop a hne => ?_, hp.pointers⟩
  · refine Decidable.byContradiction fun hne => ?_
    have hok := (hcase.touched (htouched a hne)).1
    rcases herr with herr | herr <;> exact absurd (herr.symm.trans hok) (by decide)
  all_goals
    subst hop
    rcases (hcase.touched (htouched a hne)).2 with ⟨hop, h⟩ | ⟨hop, h⟩ | ⟨hop, h⟩
    all_goals first | exact absurd hop (by decide) | omega

theorem vectorFlash_denied : (messageHandle pic18f25k22 hostMsgFlashData (fun _ => 0x10) 5
    (.powerUp vectorFlash)).2.flash = vectorFlash :=
  (messageHandle_regions pic18f25k22 hostMsgFlashData (fun _ => 0x10) 5 (.powerUp vectorFlash)
    (Nvm.idle_powerUp vectorFlash)).1 (by decide)

end Pic18Boot
