import Pic18Boot.Verify.Framing
import Pic18Boot.Verify.PowerLoss

/-! # Whole flashing sessions

What one byte does to the device, and from it what holds along a session: which messages leave the
reset vector alone (`reset_vector_iff`) and which are answered as the protocol says
(`session_replies_iff`). -/

namespace Pic18Boot
open NorFlash

variable {L : Layout} {d : Device} {rs : List Rcv} {b : Rcv} {m : Msg} {status : FlashingStatus}

/-! ## Runs -/

/-- Everything a byte can do: it calls nothing and leaves the hardware alone, or it is the last byte
of a frame. -/
theorem fwReceiveByte_cases (L : Layout) (d : Device) (b : Rcv) :
    ((fwReceiveByte L d b).1.nvm = d.nvm ∧ (fwReceiveByte L d b).2.handled = none) ∨
      ∃ rx m, fwReceiveByte L d b = handleFrame L d.nvm rx b.ram m := by
  unfold fwReceiveByte
  split
  · exact .inl ⟨rfl, rfl⟩
  · split
    · exact .inl ⟨rfl, rfl⟩
    · exact .inl ⟨rfl, rfl⟩
    · exact .inr ⟨_, _, rfl⟩

/-- Every reaction of a run is the reaction to one byte. -/
theorem mem_deviceFeed {x : Reaction} (hx : x ∈ (deviceFeed L d rs).2) :
    ∃ d' b, x = (fwReceiveByte L d' b).2 := by
  induction rs generalizing d with
  | nil => exact absurd hx List.not_mem_nil
  | cons b rs ih =>
    rcases List.mem_cons.mp hx with rfl | hx
    · exact ⟨d, b, rfl⟩
    · exact ih hx

/-- The reaction to the byte after `p`. -/
theorem getElem?_deviceFeed {p : List Rcv} (h : p ++ [b] <+: rs) :
    (deviceFeed L d rs).2[p.length]? = some (fwReceiveByte L (deviceFeed L d p).1 b).2 := by
  obtain ⟨t, rfl⟩ := h
  rw [List.append_assoc, deviceFeed_append, List.getElem?_append_right (by simp)]
  simp [deviceFeed]

/-- Bytes that complete no frame leave the hardware alone. -/
theorem deviceFeed_quiet (h : ∀ x ∈ (deviceFeed L d rs).2, x.handled = none) :
    (deviceFeed L d rs).1.nvm = d.nvm := by
  induction rs generalizing d with
  | nil => rfl
  | cons b rs ih =>
    refine (ih fun x hx => h x (List.mem_cons_of_mem _ hx)).trans ?_
    rcases fwReceiveByte_cases L d b with ⟨hnvm, -⟩ | ⟨rx, m, heq⟩
    · exact hnvm
    · have hnone := h _ List.mem_cons_self
      rw [heq, handleFrame_handled] at hnone
      cases hnone

/-- The messages of a run all satisfy `Q`. -/
def Handles (Q : Msg → FlashingStatus → Prop) (x : Reaction) : Prop :=
  ∀ m status, x.handled = some (m, status) → Q m status

/-- The rule for a property of the device that a byte keeps, under the invariant `I`, exactly when
the message it completes satisfies `Q`: it holds all along a run exactly when every message of the
run does. -/
theorem deviceFeed_rule {I P : Device → Prop} {Q : Msg → FlashingStatus → Prop}
    (hI : ∀ d b, I d → I (fwReceiveByte L d b).1)
    (hP : ∀ d b, I d → P d → (P (fwReceiveByte L d b).1 ↔ Handles Q (fwReceiveByte L d b).2))
    (hd : I d) (h0 : P d) :
    (∀ p, p <+: rs → P (deviceFeed L d p).1) ↔ ∀ x ∈ (deviceFeed L d rs).2, Handles Q x := by
  induction rs generalizing d with
  | nil => exact ⟨fun _ => nofun, fun _ p hp => by rwa [List.prefix_nil.mp hp]⟩
  | cons b rs ih =>
    have hstep := hP d b hd h0
    have htail := @ih (fwReceiveByte L d b).1 (hI d b hd)
    constructor
    · intro h x hx
      have hfirst : P (fwReceiveByte L d b).1 := h [b] (by simp)
      rcases List.mem_cons.mp hx with rfl | hx
      · exact hstep.mp hfirst
      · exact (htail hfirst).mp (fun p hp => h (b :: p) (List.cons_prefix_cons.mpr ⟨rfl, hp⟩)) x hx
    · intro h p hp
      have hfirst : P (fwReceiveByte L d b).1 := hstep.mpr (h _ List.mem_cons_self)
      cases p with
      | nil => exact h0
      | cons c p =>
        obtain ⟨rfl, htl⟩ := List.cons_prefix_cons.mp hp
        exact (htail hfirst).mpr (fun x hx => h x (List.mem_cons_of_mem _ hx)) p htl

theorem fwReceiveByte_idle (h : d.nvm.Idle) : (fwReceiveByte L d b).1.nvm.Idle := by
  rcases fwReceiveByte_cases L d b with ⟨hnvm, -⟩ | ⟨rx, m, heq⟩
  · rwa [hnvm]
  · rw [heq, handleFrame_nvm]
    exact messageHandle_idle h

/-! ## The reset vector -/

/-- A record at an address other than 0 that is carried out does not clear a bit of the `GOTO` where
its bytes fall on 0..3: at addresses 1 to 3, or past the top of the address space. -/
def SparesVector (L : Layout) (m : Msg) : Prop :=
  m.op = hostMsgFlashData → Accepted L m.op m.data m.len → dataAddr m.data ≠ 0 →
    ∀ k < (m.data 0).toNat, (dataAddr m.data + k) % 2 ^ 22 < 4 →
      gotoInstr L.btldOffset ((dataAddr m.data + k) % 2 ^ 22) &&& payload m.data k =
        gotoInstr L.btldOffset ((dataAddr m.data + k) % 2 ^ 22)

/-- What a message programs into 0..3. -/
theorem MessageCase.sparesVector_iff {mask : Nat → UInt8}
    (h : MessageCase L m.op m.data m.len status mask)
    (hok : Accepted L m.op m.data m.len → status = .noErr) :
    (∀ a < 4, gotoInstr L.btldOffset a &&& mask a = gotoInstr L.btldOffset a) ↔
      SparesVector L m := by
  have hmem : 4 ≤ L.mem := by
    have := L.two_blocks
    have := L.btld_lt
    omega
  have hsig := L.signatOffset_ge
  have hcode := L.codeSizeOffset_eq
  have hoff := L.signatOffset_eq
  have hclear : (∀ a < 4, mask a = blank) →
      ∀ a < 4, gotoInstr L.btldOffset a &&& mask a = gotoInstr L.btldOffset a :=
    fun hb a ha => by rw [hb a ha]; exact and_blank _
  have hlow : (∀ a, mask a ≠ blank → 4 ≤ a) → ∀ a < 4, mask a = blank := fun hm a ha =>
    Decidable.byContradiction fun hne => absurd (hm a hne) (by omega)
  have hcase := h
  cases h with
  | size hop _ | signat hop _ =>
    refine ⟨fun _ hD => absurd (hop.symm.trans hD) (by decide),
      fun _ => hclear (hlow fun a ha => ?_)⟩
    rcases (hcase.touched ha).2 with ⟨-, h, -⟩ | ⟨-, h, -⟩ | ⟨hD, -⟩
    · omega
    · omega
    · exact absurd (hop.symm.trans hD) (by decide)
  | relocate _ _ hd h0 =>
    exact ⟨fun _ _ _ hne => absurd h0 hne,
      fun _ => hclear (hlow fun a ha => (relocate_touched hd h0 ha).1)⟩
  | data hop hlen hd h0 =>
    have hcount := (m.data 0).toNat_lt
    have hhit : ∀ k < (m.data 0).toNat, (dataAddr m.data + k) % 2 ^ 22 < 4 →
        writeMask L.mem (dataAddr m.data) (payload m.data) (m.data 0).toNat
          ((dataAddr m.data + k) % 2 ^ 22) = payload m.data k :=
      fun k hk hlt => writeMask_hit (by omega) hk (by omega)
    constructor
    · intro h _ _ _ k hk hlt
      rw [← hhit k hk hlt]
      exact h _ hlt
    · intro h a ha
      by_cases hw : writeMask L.mem (dataAddr m.data) (payload m.data) (m.data 0).toNat a = blank
      · rw [hw]
        exact and_blank _
      · obtain ⟨-, k, hk, rfl⟩ := writeMask_touched hw
        rw [hhit k hk ha]
        exact h hop (.inr (.inr ⟨hop, hlen, hd⟩)) h0 k hk ha
  | stop hop _ =>
    exact ⟨fun _ hD => absurd (hop.symm.trans hD) (by decide), fun _ => hclear fun _ _ => rfl⟩
  | denied _ _ _ | invalid =>
    exact ⟨fun _ _ hacc => absurd (hok hacc) nofun, fun _ => hclear fun _ _ => rfl⟩

theorem messageHandle_vector {s : Nvm} (hs : s.Idle) (hf : HoldsGoto s.flash 0 L.btldOffset) :
    HoldsGoto (messageHandle L m.op m.data m.len s).2.flash 0 L.btldOffset ↔ SparesVector L m := by
  obtain ⟨mask, hcase, hp⟩ := messageHandle_cases L m.op m.data m.len s
  rw [← hcase.sparesVector_iff messageHandle_noErr.mpr, HoldsGoto.iff_zero, (hp hs).flash]
  refine forall₂_congr fun a ha => ?_
  rw [program_apply, HoldsGoto.iff_zero.mp hf a ha]

theorem fwReceiveByte_vector (hs : d.nvm.Idle) (hf : HoldsGoto d.nvm.flash 0 L.btldOffset) :
    HoldsGoto (fwReceiveByte L d b).1.nvm.flash 0 L.btldOffset ↔
      Handles (fun m _ => SparesVector L m) (fwReceiveByte L d b).2 := by
  rcases fwReceiveByte_cases L d b with ⟨hnvm, hnone⟩ | ⟨rx, m, heq⟩
  · rw [hnvm, Handles, hnone]
    exact ⟨fun _ => nofun, fun _ => hf⟩
  · rw [heq, handleFrame_nvm, messageHandle_vector hs hf, Handles, handleFrame_handled]
    refine ⟨fun h m' status' heq' => ?_, fun h => h _ _ rfl⟩
    cases heq'
    exact h

theorem sessionStart_idle {s : Nvm} {msg : Nat → UInt8} (hs : s.Idle) :
    (sessionStart L s msg).nvm.Idle :=
  (eraseFlash_ran hs).2

theorem sessionStart_vector {s : Nvm} {msg : Nat → UInt8} (hs : s.Idle)
    (hf : HoldsGoto s.flash 0 L.btldOffset) :
    HoldsGoto (sessionStart L s msg).nvm.flash 0 L.btldOffset := by
  apply HoldsGoto.iff_zero.mpr
  intro k hk
  exact (eraseFlash_low L.mem_ge hs hk).trans (HoldsGoto.iff_zero.mp hf k hk)

theorem deviceFeed_vector (hs : d.nvm.Idle) (hf : HoldsGoto d.nvm.flash 0 L.btldOffset) :
    (∀ p, p <+: rs → HoldsGoto (deviceFeed L d p).1.nvm.flash 0 L.btldOffset) ↔
      ∀ x ∈ (deviceFeed L d rs).2, Handles (fun m _ => SparesVector L m) x :=
  deviceFeed_rule (I := fun d => d.nvm.Idle)
    (P := fun d => HoldsGoto d.nvm.flash 0 L.btldOffset) (fun _ _ => fwReceiveByte_idle)
    (fun _ _ => fwReceiveByte_vector) hs hf

/-- **The reset vector along a session**, exactly: the erase keeps the `GOTO` at address 0, and it
stays there through the session, so that a reset at any moment enters the bootloader, if and only if
every message of the session spares it. -/
theorem reset_vector_iff (L : Layout) (s : Nvm) (msg : Nat → UInt8) (rs : List Rcv) (hs : s.Idle)
    (hf : HoldsGoto s.flash 0 L.btldOffset) :
    (∀ p, p <+: rs →
      HoldsGoto (deviceFeed L (sessionStart L s msg) p).1.nvm.flash 0 L.btldOffset ∧
        gotoTarget (deviceFeed L (sessionStart L s msg) p).1.nvm.flash 0 = some L.btldOffset) ↔
    ∀ x ∈ (deviceFeed L (sessionStart L s msg) rs).2, Handles (fun m _ => SparesVector L m) x := by
  have hoff : L.btldOffset < 2 ^ 21 := Nat.lt_of_lt_of_le L.btld_lt L.mem_le
  have heven : L.btldOffset % 2 = 0 := by
    have := L.aligned
    omega
  rw [← deviceFeed_vector (sessionStart_idle hs) (sessionStart_vector hs hf)]
  exact forall₂_congr fun p _ => ⟨And.left, fun h => ⟨h, h.target heven hoff⟩⟩

theorem Msg.data_of_received {l : List UInt8} {k : Nat} {v : UInt8} (h : m.received = l)
    (hk : l[k]? = some v) : m.data k = v := by
  have hlt : k < m.len := by
    have := (List.getElem?_eq_some_iff.mp hk).1
    rwa [← h, Msg.received, Buf.length_toList] at this
  rw [← h, Msg.received, Buf.getElem?_toList hlt] at hk
  exact Option.some.inj hk

/-- The address and the count of a received record. -/
theorem Msg.record_of_received {count hi mid lo : UInt8} {data : List UInt8}
    (h : m.received = count :: hi :: mid :: lo :: data) :
    m.data 0 = count ∧
      dataAddr m.data = hi.toNat * 65536 + mid.toNat * 256 + lo.toNat ∧
      ∀ k v, data[k]? = some v → payload m.data k = v := by
  refine ⟨m.data_of_received h rfl, ?_, fun k v hk => m.data_of_received h ?_⟩
  · rw [dataAddr_eq, m.data_of_received h (k := 1) rfl, m.data_of_received h (k := 2) rfl,
      m.data_of_received h (k := 3) rfl]
  · rw [hostMsgDataPayloadOffset, Nat.add_comm]
    exact hk

/-- What holds of every message of an encoded frame is what holds of its one message. -/
theorem handles_frame (op : UInt8) (payload : List UInt8) (hrun : d.running = true)
    (hesc : d.rx.escaped = false) (hlen : payload.length ≤ 67)
    (h : rs.map Rcv.byte = encodeForUart (op :: payload)) :
    ∃ m, m.op = op ∧ m.len = payload.length ∧ m.received = payload ∧
      ∀ Q : Msg → FlashingStatus → Prop, (∀ x ∈ (deviceFeed L d rs).2, Handles Q x) ↔
        Q m (messageHandle L m.op m.data m.len d.nvm).1 := by
  obtain ⟨n, rx, ram, m, hop, hmlen, hrec, -, -, hfeed⟩ :=
    deviceFeed_frame (L := L) hrun hesc hlen h
  refine ⟨m, hop, hmlen, hrec, fun Q => ?_⟩
  rw [hfeed]
  constructor
  · intro hall
    exact hall _ (List.mem_append_right _ (List.mem_singleton.mpr rfl)) m _ handleFrame_handled
  · intro hQ x hx m' status hm'
    rcases List.mem_append.mp hx with hx | hx
    · rw [(List.mem_replicate.mp hx).2] at hm'
      cases hm'
    · rw [List.mem_singleton.mp hx, handleFrame_handled] at hm'
      cases hm'
      exact hQ

/-- The user code's own `GOTO`, written at 4, is such a message. -/
theorem user_vector_spared :
    let rs := received (encodeForUart [hostMsgFlashData, 4, 0, 0, 4, 0x20, 0xEF, 0x00, 0xF0])
    HoldsGoto (deviceFeed pic18f25k22
      (sessionStart pic18f25k22 (.powerUp vectorFlash) fun _ => 0) rs).1.nvm.flash 0 0x1000 := by
  intro rs
  refine ((reset_vector_iff pic18f25k22 _ _ rs (Nvm.idle_powerUp vectorFlash) vectorFlash_holds).mpr
    ?_ rs (List.prefix_refl rs)).1
  obtain ⟨m, -, -, hrec, hall⟩ := handles_frame (L := pic18f25k22)
    (d := sessionStart pic18f25k22 (.powerUp vectorFlash) fun _ => 0) hostMsgFlashData
    [4, 0, 0, 4, 0x20, 0xEF, 0x00, 0xF0] rfl rfl (by decide) received_byte
  obtain ⟨hcount, haddr, -⟩ := m.record_of_received hrec
  refine (hall _).mpr ?_
  intro _ _ _ k hk hlt
  rw [hcount] at hk
  rw [haddr] at hlt
  have hk : k < 4 := hk
  have hlt : (4 + k) % 2 ^ 22 < 4 := hlt
  omega

/-- Three bytes at address 1. -/
theorem low_record_clears_vector :
    let rs := received (encodeForUart [hostMsgFlashData, 3, 0, 0, 1, 0, 0, 0])
    HoldsGoto vectorFlash 0 0x1000 ∧ ¬ ∀ p, p <+: rs →
      HoldsGoto (deviceFeed pic18f25k22
        (sessionStart pic18f25k22 (.powerUp vectorFlash) fun _ => 0) p).1.nvm.flash 0 0x1000 := by
  intro rs
  refine ⟨vectorFlash_holds, fun h => ?_⟩
  have hidle := Nvm.idle_powerUp vectorFlash
  have hspares := (deviceFeed_vector (L := pic18f25k22) (sessionStart_idle hidle)
    (sessionStart_vector hidle vectorFlash_holds)).mp h
  obtain ⟨m, hop, hlen, hrec, hall⟩ := handles_frame (L := pic18f25k22)
    (d := sessionStart pic18f25k22 (.powerUp vectorFlash) fun _ => 0) hostMsgFlashData
    [3, 0, 0, 1, 0, 0, 0] rfl rfl (by decide) received_byte
  obtain ⟨hcount, haddr, hdata⟩ := m.record_of_received hrec
  have haddr : dataAddr m.data = 1 := haddr
  have hfree : ¬ DeniedAddr pic18f25k22 m.data := by
    rw [DeniedAddr, haddr, hcount]
    decide
  have hspares := (hall _).mp hspares hop (.inr (.inr ⟨hop, by rw [hlen]; decide, hfree⟩))
    (by omega) 0 (by rw [hcount]; decide) (by rw [haddr]; decide)
  rw [haddr, hdata 0 0 rfl] at hspares
  exact absurd hspares (by decide)

/-! ## Replies -/

/-- The reply the protocol has for the outcome of a message, and the lookup that produced it. -/
structure ReplyOk (status : FlashingStatus) (sent : List UInt8) : Prop where
  answer : ∃ reply, sent = [reply] ∧
    (reply = mcuMsgOpSuccess ↔ status = .noErr ∨ status = .flashingDone) ∧
    (reply = mcuErrDeniedAddr ↔ status = .errDeniedAddr) ∧
    (reply = mcuErrInvalidPayload ↔ status = .errInvalidPayload)
  /-- `mcu_errs` is indexed inside its bounds. -/
  lookup : status ≠ .noErr → status.toNat < mcuErrs.length

theorem handleFrame_replyOk {nvm : Nvm} {rx : Rx} {ram : Ram} :
    ReplyOk (messageHandle L m.op m.data m.len nvm).1 (handleFrame L nvm rx ram m).2.sent ↔
      Accepted L m.op m.data m.len := by
  rw [← messageHandle_noErr (s := nvm), handleFrame_sent]
  cases hst : (messageHandle L m.op m.data m.len nvm).1 with
  | noErr =>
    exact ⟨fun _ => rfl,
      fun _ => ⟨⟨_, rfl, by decide, by decide, by decide⟩, fun h => absurd rfl h⟩⟩
  | flashingDone =>
    refine ⟨fun ⟨⟨reply, hsent, _, _, hinvalid⟩, _⟩ => ?_, nofun⟩
    obtain rfl := (List.singleton_inj.mp hsent)
    exact absurd (hinvalid.mp rfl) nofun
  | errInvalidPayload =>
    refine ⟨fun ⟨⟨reply, hsent, _, hdenied, _⟩, _⟩ => ?_, nofun⟩
    obtain rfl := (List.singleton_inj.mp hsent)
    exact absurd (hdenied.mp rfl) nofun
  | errDeniedAddr => exact ⟨fun h => absurd (h.lookup nofun) (by decide), nofun⟩

/-- **Replies along a session**, exactly: every frame is answered as the protocol says if and only
if every frame is a message that is carried out with `STATUS_NO_ERR`. -/
theorem session_replies_iff (L : Layout) (s : Nvm) (msg : Nat → UInt8) (rs : List Rcv) :
    (∀ x ∈ (deviceFeed L (sessionStart L s msg) rs).2,
      Handles (fun _ status => ReplyOk status x.sent) x) ↔
    ∀ x ∈ (deviceFeed L (sessionStart L s msg) rs).2,
      Handles (fun m _ => Accepted L m.op m.data m.len) x := by
  refine forall₂_congr fun x hx => ?_
  obtain ⟨d, b, rfl⟩ := mem_deviceFeed hx
  rcases fwReceiveByte_cases L d b with ⟨-, hnone⟩ | ⟨rx, m, heq⟩
  · simp [Handles, hnone]
  · simp [Handles, heq, handleFrame_handled, handleFrame_replyOk]

/-- The frame that ends a session is answered with an error. -/
theorem stop_answered_invalid : ¬ ∀ x ∈ (deviceFeed pic18f25k22
    (sessionStart pic18f25k22 (.powerUp vectorFlash) fun _ => 0) (received stopMsg)).2,
    Handles (fun _ status => ReplyOk status x.sent) x := by
  intro h
  obtain ⟨reply, hsent, -, -, hinvalid⟩ := (h ⟨_, [mcuErrInvalidPayload]⟩
    (List.mem_cons_of_mem _ (List.mem_cons_of_mem _ List.mem_cons_self)) _ .flashingDone rfl).answer
  obtain rfl := List.singleton_inj.mp hsent
  exact absurd (hinvalid.mp rfl) nofun

end Pic18Boot
