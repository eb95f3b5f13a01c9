import Pic18Boot.Verify.Commands

/-! # What a flash-data message is checked for

Three limits of `message_handle`, each with the messages it misses: the address check adds in 24
bits (`address_check_iff`), the count is not compared with the bytes received (`received_only_iff`),
and a record may not end where the metadata starts (`image_accepted_iff`). -/

namespace Pic18Boot

variable {L : Layout} {op : UInt8} {data : Nat → UInt8} {len : Nat} {s : Nvm} {m : Msg}

/-! ## The address check -/

/-- One past the last address of a flash-data message. -/
def dataEnd (data : Nat → UInt8) : Nat := dataAddr data + (data 0).toNat

/-- The end does not fit in 24 bits, and what is left of it is below the limit. -/
def WrapsBelow (L : Layout) (data : Nat → UInt8) : Prop :=
  2 ^ 24 ≤ dataEnd data ∧ dataEnd data < 2 ^ 24 + L.signatOffset

theorem deniedAddr_iff :
    DeniedAddr L data ↔ L.signatOffset ≤ dataEnd data ∧ ¬ WrapsBelow L data := by
  have haddr := dataAddr_lt data
  have hcount := (data 0).toNat_lt
  have hsig := L.signatOffset_lt
  have hend : dataEnd data = dataAddr data + (data 0).toNat := rfl
  rw [DeniedAddr, WrapsBelow, ← hend]
  omega

theorem messageHandle_denied (hlen : 5 ≤ len) (hd : DeniedAddr L data) :
    messageHandle L hostMsgFlashData data len s = (.errDeniedAddr, s) := by
  rw [messageHandle, if_neg (by decide), if_neg (by decide), if_pos rfl,
    if_neg (Nat.not_lt.mpr hlen), if_pos hd]

/-- **The address check is sound over the integers**, exactly for the messages that do not wrap
below the limit. -/
theorem address_check_iff (L : Layout) (data : Nat → UInt8) (len : Nat) (s : Nvm) (hlen : 5 ≤ len) :
    let r := messageHandle L hostMsgFlashData data len s
    ((r.2.ops ≠ s.ops → dataEnd data ≤ L.signatOffset) ∧
      (L.signatOffset < dataEnd data → r.1 = .errDeniedAddr ∧ r.2.flash = s.flash)) ↔
    ¬ WrapsBelow L data := by
  intro r
  constructor
  · rintro ⟨-, hdeny⟩ hwrap
    have hsig := L.signatOffset_lt
    have hpast : L.signatOffset < dataEnd data := Nat.lt_of_lt_of_le (by omega) hwrap.1
    have hd : ¬ DeniedAddr L data := fun hd => (deniedAddr_iff.mp hd).2 hwrap
    have hok : r.1 = .noErr := by rw [show r = _ from messageHandle_data hlen hd]
    exact absurd (hok.symm.trans (hdeny hpast).1) nofun
  · intro hwrap
    have hdeny : L.signatOffset ≤ dataEnd data → r = (.errDeniedAddr, s) := fun hle =>
      messageHandle_denied hlen (deniedAddr_iff.mpr ⟨hle, hwrap⟩)
    refine ⟨fun hops => ?_, fun hlt => ?_⟩
    · apply Nat.le_of_not_lt
      intro hlt
      exact hops (by rw [hdeny (Nat.le_of_lt hlt)])
    · rw [hdeny (Nat.le_of_lt hlt)]
      exact ⟨rfl, rfl⟩

theorem address_check_denies :
    (messageHandle pic18f25k22 hostMsgFlashData (fun _ => 0x10) 5 (.powerUp vectorFlash)).1 =
      .errDeniedAddr :=
  (((address_check_iff pic18f25k22 (fun _ => 0x10) 5 (.powerUp vectorFlash) (by decide)).mpr
    fun h => absurd h.1 (by decide)).2 (by decide)).1

/-- Five zeros at the last address of 24 bits: all but the first land on the reset vector. -/
def wrappedData (k : Nat) : UInt8 := if k = 0 then 5 else if k < 4 then 0xFF else 0

theorem wrapped_accepted : dataEnd wrappedData = 0x1000004 ∧
    (messageHandle pic18f25k22 hostMsgFlashData wrappedData 9 (.powerUp vectorFlash)).1 = .noErr ∧
    (messageHandle pic18f25k22 hostMsgFlashData wrappedData 9 (.powerUp vectorFlash)).2.flash 1 =
      0 ∧
    vectorFlash 1 = 0xEF := by decide

/-! ## What is passed to `write_flash` -/

/-- A call `write_flash(addr, &data[offset], count)`. -/
structure WriteCall where
  addr : Nat
  offset : Nat
  count : Nat

/-- The calls of `write_flash` that `message_handle` makes, in order. -/
def messageWrites (L : Layout) (op : UInt8) (data : Nat → UInt8) (len : Nat) : List WriteCall :=
  if op = hostMsgProgramSize then
    if len ≠ codeSizeBytes then [] else [⟨L.codeSizeOffset, 0, codeSizeBytes⟩]
  else if op = hostMsgProgramSignat then
    if len ≠ signatSize then [] else [⟨L.signatOffset, 0, signatSize⟩]
  else if op = hostMsgFlashData then
    if len < 5 ∨ DeniedAddr L data then []
    else if dataAddr data = 0 then
      ⟨4, hostMsgDataPayloadOffset, 4⟩ ::
        if (data 0).toNat > 8 then [⟨8, hostMsgDataPayloadOffset + 8, (data 0).toNat - 8⟩] else []
    else [⟨dataAddr data, hostMsgDataPayloadOffset, (data 0).toNat⟩]
  else []

/-- `message_handle` changes the hardware by these calls only. -/
theorem messageHandle_writes : (messageHandle L op data len s).2 =
    (messageWrites L op data len).foldl
      (fun s w => writeFlash L.mem w.addr (fun k => data (w.offset + k)) w.count s) s := by
  unfold messageHandle messageWrites
  split
  · split
    · rfl
    · simp only [List.foldl_cons, List.foldl_nil, Nat.zero_add]
  split
  · split
    · rfl
    · simp only [List.foldl_cons, List.foldl_nil, Nat.zero_add]
  split
  · by_cases hlen : len < 5
    · rw [if_pos hlen, if_pos (.inl hlen), List.foldl_nil]
    by_cases hd : DeniedAddr L data
    · rw [if_neg hlen, if_pos hd, if_pos (.inr hd), List.foldl_nil]
    rw [if_neg hlen, if_neg hd, if_neg (not_or.mpr ⟨hlen, hd⟩), flashData]
    dsimp only
    by_cases h0 : dataAddr data = 0
    · rw [if_pos h0, if_pos h0, List.foldl_cons]
      split
      · rw [List.foldl_cons, List.foldl_nil]
      · rw [List.foldl_nil]
    · rw [if_neg h0, if_neg h0, List.foldl_cons, List.foldl_nil]
  split
  · split
    · rfl
    · rfl
  · rfl

/-- Every byte programmed is one of the bytes received, and a flash-data message whose count is not
theirs, or that is too short for the `GOTO` it relocates, is invalid. -/
def ReceivedOnly (L : Layout) (m : Msg) (status : FlashingStatus) : Prop :=
  (∀ w ∈ messageWrites L m.op m.data m.len, ∀ k < w.count, w.offset + k < m.len) ∧
    (m.op = hostMsgFlashData →
      (m.data 0).toNat + 4 ≠ m.len ∨ dataAddr m.data = 0 ∧ m.len < 8 → status = .errInvalidPayload)

/-- The count is that of the data bytes received, and at address 0 a `GOTO` is among them. -/
def CountMatches (m : Msg) : Prop :=
  (m.data 0).toNat + 4 = m.len ∧ (dataAddr m.data = 0 → 8 ≤ m.len)

theorem messageHandle_short (hlen : len < 5) :
    messageHandle L hostMsgFlashData data len s = (.errInvalidPayload, s) := by
  rw [messageHandle, if_neg (by decide), if_neg (by decide), if_pos rfl, if_pos hlen]

theorem WriteCall.inside {c w : WriteCall} {k : Nat} (hw : w ∈ [c]) (hk : k < w.count)
    (hc : c.offset + c.count ≤ len) : w.offset + k < len := by
  obtain rfl := List.mem_singleton.mp hw
  omega

theorem messageWrites_received {w : WriteCall} {k : Nat} (hw : w ∈ messageWrites L op data len)
    (hm : op = hostMsgFlashData → 5 ≤ len →
      (data 0).toNat + 4 = len ∧ (dataAddr data = 0 → 8 ≤ len))
    (hk : k < w.count) : w.offset + k < len := by
  unfold messageWrites at hw
  split at hw
  · split at hw
    · cases hw
    · next hlen => exact WriteCall.inside hw hk (by dsimp only; omega)
  split at hw
  · split at hw
    · cases hw
    · next hlen => exact WriteCall.inside hw hk (by dsimp only; omega)
  split at hw
  · next hop =>
    split at hw
    · cases hw
    next hok =>
    obtain ⟨hcount, hgoto⟩ := hm hop (Nat.not_lt.mp (not_or.mp hok).1)
    simp only [hostMsgDataPayloadOffset] at hw
    split at hw
    · next h0 =>
      have hgoto := hgoto h0
      rcases List.mem_cons.mp hw with hw | hw
      · exact WriteCall.inside (List.mem_singleton.mpr hw) hk hgoto
      · split at hw
        · exact WriteCall.inside hw hk (by dsimp only; omega)
        · cases hw
    · exact WriteCall.inside hw hk (by dsimp only; omega)
  · cases hw

theorem messageHandle_receivedOnly : ReceivedOnly L m (messageHandle L m.op m.data m.len s).1 ↔
    (m.op = hostMsgFlashData → 5 ≤ m.len → CountMatches m) := by
  constructor
  · rintro ⟨-, hinvalid⟩ hop hlen
    unfold CountMatches
    refine Decidable.byContradiction fun hne => ?_
    have hstatus := hinvalid hop (by omega)
    rw [hop] at hstatus
    by_cases hd : DeniedAddr L m.data
    · rw [messageHandle_denied hlen hd] at hstatus
      cases hstatus
    · rw [messageHandle_data hlen hd] at hstatus
      cases hstatus
  · intro hm
    refine ⟨fun w hw k hk => messageWrites_received hw hm hk, fun hop hbad => ?_⟩
    rw [hop]
    by_cases hlen : m.len < 5
    · rw [messageHandle_short hlen]
    · have hcount := hm hop (Nat.not_lt.mp hlen)
      rw [CountMatches] at hcount
      omega

/-- **Only received bytes are programmed**, exactly by the frames whose count is that of their data
bytes and that bring a whole `GOTO` for address 0: the calls `messageWrites` are all that a frame
does to the hardware. -/
theorem received_only_iff (L : Layout) (d : Device) (rs : List Rcv) :
    ∀ x ∈ (deviceFeed L d rs).2, Handles (fun m status =>
      (∀ s, (messageHandle L m.op m.data m.len s).2 = (messageWrites L m.op m.data m.len).foldl
        (fun s w => writeFlash L.mem w.addr (fun k => m.data (w.offset + k)) w.count s) s) ∧
      (ReceivedOnly L m status ↔
        (m.op = hostMsgFlashData → 5 ≤ m.len → CountMatches m))) x := by
  intro x hx m status hm
  obtain ⟨d', b, rfl⟩ := mem_deviceFeed hx
  rcases fwReceiveByte_cases L d' b with ⟨-, hnone⟩ | ⟨rx, m', heq⟩
  · rw [hnone] at hm
    cases hm
  · rw [heq, handleFrame_handled] at hm
    cases hm
    exact ⟨fun s => messageHandle_writes, messageHandle_receivedOnly⟩

/-- A record of one byte with its count. -/
theorem counted_record_received : ∃ x ∈ (deviceFeed pic18f25k22
    (sessionStart pic18f25k22 (.powerUp vectorFlash) fun _ => 0)
    (received (encodeForUart [hostMsgFlashData, 1, 0, 1, 0, 0xAA]))).2,
    ∃ m status, x.handled = some (m, status) ∧ ReceivedOnly pic18f25k22 m status := by
  obtain ⟨m, hm, x, hx, hhandled⟩ := (ready_sessionStart (L := pic18f25k22) (fun _ => 0)
    (Nvm.idle_powerUp vectorFlash)).handled hostMsgFlashData [1, 0, 1, 0, 0xAA] (by decide)
    received_byte
  obtain ⟨hcount, haddr, -⟩ := m.record_of_received hm.received
  refine ⟨x, hx, m, _, hhandled, ?_⟩
  apply (received_only_iff pic18f25k22 _ _ x hx m _ hhandled).2.mpr
  intro _ _
  exact ⟨by rw [hcount, hm.len]; rfl, fun h0 => absurd (haddr.symm.trans h0) (by decide)⟩

/-- One data byte under a count of two: the byte after the frame is programmed with it. -/
theorem short_record_programmed : ¬ ∀ x ∈ (deviceFeed pic18f25k22
    (sessionStart pic18f25k22 (.powerUp vectorFlash) fun _ => 0)
    (received (encodeForUart [hostMsgFlashData, 2, 0, 1, 0, 0xAA]))).2,
    Handles (ReceivedOnly pic18f25k22) x := by
  intro h
  obtain ⟨m, hop, hlen, hrec, hall⟩ := handles_frame (L := pic18f25k22)
    (d := sessionStart pic18f25k22 (.powerUp vectorFlash) fun _ => 0) hostMsgFlashData
    [2, 0, 1, 0, 0xAA] rfl rfl (by decide) received_byte
  obtain ⟨hcount, -, -⟩ := m.record_of_received hrec
  have hmatch := (messageHandle_receivedOnly.mp ((hall _).mp h) hop (by rw [hlen]; decide)).1
  rw [hcount, hlen] at hmatch
  exact absurd hmatch (by decide)

/-! ## The whole user region -/

/-- The records are the image cut into pieces that fit a message. -/
structure Cuts (img : Nat → Option UInt8) (recs : List (Nat × List UInt8)) : Prop where
  length : ∀ r ∈ recs, 1 ≤ r.2.length ∧ r.2.length ≤ 63
  bytes : ∀ a b, img a = some b ↔ ∃ r ∈ recs, r.1 ≤ a ∧ r.2[a - r.1]? = some b

variable {img : Nat → Option UInt8} {recs : List (Nat × List UInt8)} {rec : Nat × List UInt8}

/-- The last byte of a record is a byte of the image. -/
theorem Cuts.last (h : Cuts img recs) (hr : rec ∈ recs) : img (recEnd rec - 1) ≠ none := by
  have hlen := (h.length rec hr).1
  have hend := recEnd_eq rec
  have hlt : recEnd rec - 1 - rec.1 < rec.2.length := by omega
  rw [(h.bytes _ _).mpr ⟨rec, hr, by omega, List.getElem?_eq_getElem hlt⟩]
  nofun

theorem Carries.noErr_iff (hm : Carries m hostMsgFlashData (recordArgs rec))
    (hlen : 1 ≤ rec.2.length ∧ rec.2.length ≤ 63) (hend : recEnd rec ≤ L.signatOffset) :
    (messageHandle L m.op m.data m.len s).1 = .noErr ↔ recEnd rec ≠ L.signatOffset := by
  have hsig := L.signatOffset_lt
  have hrec := recEnd_eq rec
  obtain ⟨hcount, hat, -⟩ := hm.record hlen.2 (by omega)
  have hfive : 5 ≤ m.len := by
    rw [hm.len]
    simp only [recordArgs, threeBytes, List.length_cons, List.length_append, List.length_nil]
    omega
  have hdenied : DeniedAddr L m.data ↔ recEnd rec = L.signatOffset := by
    rw [DeniedAddr, hcount, hat]
    omega
  rw [hm.op]
  constructor
  · intro hok heq
    rw [messageHandle_denied hfive (hdenied.mpr heq)] at hok
    cases hok
  · intro hne
    rw [messageHandle_data hfive fun hd => hne (hdenied.mp hd)]

/-- Some message carries the record. -/
theorem exists_carries (op : UInt8) (args : List UInt8) : ∃ m, Carries m op args := by
  refine ⟨⟨op, fun k => args.getD k 0, args.length⟩, rfl, rfl, ?_⟩
  refine Buf.toList_eq_of_getElem? rfl fun k hk => ?_
  have hk : k < args.length := hk
  simp [List.getElem?_eq_getElem hk]

/-- **The user region is usable** up to its last byte, and not beyond: every record of an image that
ends at or before the metadata is accepted if and only if the image leaves that byte out. -/
theorem image_accepted_iff (L : Layout) (img : Nat → Option UInt8)
    (recs : List (Nat × List UInt8)) (hcut : Cuts img recs)
    (hend : ∀ a, img a ≠ none → a < L.signatOffset) :
    (∀ r ∈ recs, ∀ m s, Carries m hostMsgFlashData (recordArgs r) →
      (messageHandle L m.op m.data m.len s).1 = .noErr) ↔ img (L.signatOffset - 1) = none := by
  have hrecEnd : ∀ r ∈ recs, recEnd r ≤ L.signatOffset := by
    intro r hr
    have hlast := hend _ (hcut.last hr)
    omega
  constructor
  · intro hok
    cases hbyte : img (L.signatOffset - 1) with
    | none => rfl
    | some b =>
      obtain ⟨r, hr, hle, hget⟩ := (hcut.bytes _ _).mp hbyte
      obtain ⟨m, hm⟩ := exists_carries hostMsgFlashData (recordArgs r)
      have hlt := (List.getElem?_eq_some_iff.mp hget).1
      have hsig := L.signatOffset_ge
      have hne := (hm.noErr_iff (hcut.length r hr) (hrecEnd r hr)).mp
        (hok r hr m (.powerUp fun _ => 0) hm)
      have hle' := hrecEnd r hr
      have hrec := recEnd_eq r
      omega
  · intro hfree r hr m s hm
    apply (hm.noErr_iff (hcut.length r hr) (hrecEnd r hr)).mpr
    intro heq
    exact hcut.last hr (by rw [heq, hfree])

/-- The image of one byte. -/
def byteAt (a : Nat) (b : UInt8) (x : Nat) : Option UInt8 := if x = a then some b else none

theorem byteAt_cuts (a : Nat) (b : UInt8) : Cuts (byteAt a b) [(a, [b])] where
  length r hr := by
    obtain rfl := List.mem_singleton.mp hr
    exact ⟨Nat.le_refl 1, Nat.le_add_left 1 62⟩
  bytes x c := by
    constructor
    · intro h
      obtain ⟨rfl, hbc⟩ := Option.ite_none_right_eq_some.mp h
      exact ⟨_, List.mem_singleton.mpr rfl, Nat.le_refl x, by rw [Nat.sub_self]; exact hbc⟩
    · rintro ⟨r, hr, hle, hget⟩
      obtain rfl := List.mem_singleton.mp hr
      have hlt : x - a < 1 := (List.getElem?_eq_some_iff.mp hget).1
      have hx : x = a := Nat.le_antisymm (by omega) hle
      subst hx
      rw [Nat.sub_self] at hget
      rw [byteAt, if_pos rfl]
      exact hget

theorem byteAt_lt {a : Nat} {b : UInt8} (h : a < L.signatOffset) :
    ∀ x, byteAt a b x ≠ none → x < L.signatOffset := by
  intro x hx
  have hxa : x = a := Decidable.byContradiction fun hne => hx (if_neg hne)
  rwa [hxa]

theorem byteAt_accepted : ∃ m, Carries m hostMsgFlashData (recordArgs (0xFBB, [0x5A])) ∧
    (messageHandle pic18f25k22 m.op m.data m.len (.powerUp vectorFlash)).1 = .noErr := by
  obtain ⟨m, hm⟩ := exists_carries hostMsgFlashData (recordArgs (0xFBB, [0x5A]))
  have hok := (image_accepted_iff pic18f25k22 (byteAt 0xFBB 0x5A) [(0xFBB, [0x5A])]
    (byteAt_cuts 0xFBB 0x5A) (byteAt_lt (by decide))).mpr rfl
  exact ⟨m, hm, hok _ (List.mem_singleton.mpr rfl) m _ hm⟩

/-- The last byte below the metadata. -/
theorem last_byte_denied : Cuts (byteAt 0xFBC 0x5A) [(0xFBC, [0x5A])] ∧
    (∀ a, byteAt 0xFBC 0x5A a ≠ none → a < pic18f25k22.signatOffset) ∧
    ∃ m, Carries m hostMsgFlashData (recordArgs (0xFBC, [0x5A])) ∧
      (messageHandle pic18f25k22 m.op m.data m.len (.powerUp vectorFlash)).1 ≠ .noErr := by
  obtain ⟨m, hm⟩ := exists_carries hostMsgFlashData (recordArgs (0xFBC, [0x5A]))
  refine ⟨byteAt_cuts 0xFBC 0x5A, byteAt_lt (by decide), m, hm, fun hok => ?_⟩
  exact absurd ((hm.noErr_iff (by decide) (by decide)).mp hok) (by decide)

end Pic18Boot
