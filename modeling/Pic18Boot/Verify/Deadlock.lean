import Pic18Boot.Verify.Framing
import Pic18Boot.Verify.Host

/-! # Deadlock in the flashing dialogue

Every request of the tool is one encoded frame, and the device answers a frame at its end mark or
not at all (`frame_answer`). So the dialogue is synchronous, and it is stuck exactly when a frame is
not answered, which depends on its length and on the byte that falls on slot 0 of the receive buffer
(`deadlock_free_iff`). -/

namespace Pic18Boot
open Framing Dialogue

variable {L : Layout} {C : HostCrypto} {d : Device} {rs : List Rcv} {content : List UInt8}

/-! ## The answer to a frame -/

/-- The end mark finds a buffer that begins with the start mark. -/
def Closes (r : Rx) : Prop := 0 < r.i ∧ r.msg 0 = hostMsgStart

/-- What the device has done when it has read a frame. -/
inductive FrameAnswer (L : Layout) (d : Device) (r : Rx) (d' : Device) (sent : List UInt8) : Prop
  | ignored : ¬ Closes r → d'.nvm = d.nvm → d'.running = true → sent = [] →
    FrameAnswer L d r d' sent
  | empty : Closes r → d'.nvm = d.nvm → d'.running = true → sent = [mcuMsgOpSuccess] →
    FrameAnswer L d r d' sent
  | handled {rx ram m} : Closes r → d' = (handleFrame L d.nvm rx ram m).1 →
    sent = (handleFrame L d.nvm rx ram m).2.sent → FrameAnswer L d r d' sent

/-- The device at the end mark of a frame. -/
theorem fwReceiveByte_stop (hrun : d.running = true) (hesc : d.rx.escaped = false) {x : Rcv}
    (hx : x.byte = hostMsgEnd) :
    FrameAnswer L d d.rx (fwReceiveByte L d x).1 (fwReceiveByte L d x).2.sent ∧
      (fwReceiveByte L d x).1.rx.escaped = false := by
  by_cases hc : Closes d.rx
  · have hstop := rxByte_stop hesc hc.1 hc.2
    by_cases hi : d.rx.i > 1
    · rw [if_pos hi, ← hx] at hstop
      have hbyte : fwReceiveByte L d x =
          handleFrame L d.nvm d.rx.stopped x.ram (d.rx.stopped.call x.ram (d.rx.i - 2)) := by
        rw [fwReceiveByte, if_neg (by simp [hrun]), hstop]
      rw [hbyte, handleFrame_rx]
      exact ⟨.handled hc rfl rfl, rfl⟩
    · rw [if_neg hi, ← hx] at hstop
      have hbyte : fwReceiveByte L d x =
          ({ d with rx := d.rx.stopped }, ⟨none, [mcuMsgOpSuccess]⟩) := by
        rw [fwReceiveByte, if_neg (by simp [hrun]), hstop]
      rw [hbyte]
      exact ⟨.empty hc rfl hrun rfl, rfl⟩
  · have hplain : rxByte d.rx x.byte = (d.rx.push x.byte, .more) := by
      rw [hx]
      refine rxByte_plain hesc (by decide) (by decide) fun _ => ?_
      by_cases hi : d.rx.i = 0
      · exact .inl hi
      · exact .inr fun hmsg => hc ⟨Nat.pos_of_ne_zero hi, hmsg⟩
    rw [fwReceiveByte_more hrun hplain]
    exact ⟨.ignored hc rfl hrun rfl, rfl⟩

/-- The reactions to a proper prefix are all but the last at most. -/
theorem sent_prefix {p q : List Rcv} {n : Nat} {last : Reaction} (hq : q ≠ [])
    (h : (deviceFeed L d (p ++ q)).2 = List.replicate n ⟨none, []⟩ ++ [last]) :
    (deviceFeed L d p).2.flatMap Reaction.sent = [] := by
  rw [deviceFeed_append] at h
  rcases List.eq_nil_or_concat (deviceFeed L (deviceFeed L d p).1 q).2 with hnil | ⟨R, y, hR⟩
  · exact absurd (List.length_eq_zero_iff.mp (by rw [← length_deviceFeed, hnil]; rfl)) hq
  · rw [hR, List.concat_eq_append, ← List.append_assoc] at h
    have hinit := (List.append_inj' h rfl).1
    rw [(List.append_eq_replicate_iff.mp hinit).2.1, sent_quiet]

/-- **A frame is answered at its end mark or not at all**, from every receiver state without a
pending escape. -/
theorem frame_answer (hrun : d.running = true) (hesc : d.rx.escaped = false)
    (h : rs.map Rcv.byte = encode uartMarks content) :
    FrameAnswer L d (d.rx.started.pushes content) ((bootloader L).run d rs).1
        ((bootloader L).run d rs).2 ∧
      ((bootloader L).run d rs).1.rx.escaped = false ∧
      ∀ p, p <+: rs → p ≠ rs → ((bootloader L).run d p).2 = [] := by
  obtain ⟨n, x, hx, hfeed⟩ := deviceFeed_encode (L := L) hrun hesc h
  have hesc' : (d.rx.started.pushes content).escaped = false :=
    (Rx.pushes_inv (r := d.rx.started) (show 1 < sizeofMsg by decide) rfl).2
  obtain ⟨hans, hesc''⟩ := fwReceiveByte_stop (L := L)
    (d := { d with rx := d.rx.started.pushes content }) hrun hesc' hx
  simp only [bootloader_run]
  refine ⟨?_, by rw [hfeed]; exact hesc'', fun p hp hne => ?_⟩
  · rw [hfeed, List.flatMap_append, sent_quiet]
    simp only [List.nil_append, List.flatMap_singleton]
    cases hans with
    | ignored hc hnvm hr hs => exact .ignored hc hnvm hr hs
    | empty hc hnvm hr hs => exact .empty hc hnvm hr hs
    | handled hc hd hs => exact .handled hc hd hs
  · obtain ⟨q, rfl⟩ := hp
    have hq : q ≠ [] := fun hq => hne (by rw [hq, List.append_nil])
    exact sent_prefix hq (congrArg Prod.snd hfeed)

/-- An answer comes from a frame that closes, and a device that goes on has answered `F`. -/
theorem FrameAnswer.answered {r : Rx} {d' : Device} {reply : UInt8}
    (h : FrameAnswer L d r d' [reply]) :
    Closes r ∧ (d'.running = true → reply = mcuMsgOpSuccess) := by
  cases h with
  | ignored _ _ _ hsent => cases hsent
  | empty hc _ _ hsent => exact ⟨hc, fun _ => List.singleton_inj.mp hsent⟩
  | @handled rx ram m hc hd hsent =>
    refine ⟨hc, fun hrun => ?_⟩
    rw [hd, handleFrame_running, ← messageHandle_noErr (s := d.nvm)] at hrun
    rw [handleFrame_sent, hrun] at hsent
    exact List.singleton_inj.mp hsent

theorem FrameAnswer.silent_iff {r : Rx} {d' : Device} {sent : List UInt8}
    (h : FrameAnswer L d r d' sent) : sent = [] ↔ ¬ Closes r := by
  cases h with
  | ignored hc _ _ hsent => exact ⟨fun _ => hc, fun _ => hsent⟩
  | empty hc _ _ hsent => exact ⟨fun hnil => absurd (hsent.symm.trans hnil) nofun, absurd hc⟩
  | handled hc _ hsent =>
    obtain ⟨reply, hone⟩ := handleFrame_one
    exact ⟨fun hnil => absurd (hone.symm.trans (hsent.symm.trans hnil)) nofun, absurd hc⟩

/-- Which frames close: the index is not 0 at the end mark, and slot 0 still holds the start mark or
holds a content byte equal to it. -/
theorem closes_started {r : Rx} : Closes (r.started.pushes content) ↔
    (content.length + 1) % 70 ≠ 0 ∧ (content.length < 70 ∨
      content[content.length - (content.length + 1) % 70]? = some hostMsgStart) := by
  obtain ⟨hi, hslot, h0⟩ := pushes_started (r := r) content
  rw [Closes, hi, Nat.pos_iff_ne_zero]
  refine and_congr_right fun hne => ?_
  by_cases hlt : content.length < 70
  · exact iff_of_true (h0 hlt) (.inl hlt)
  have hk : content.length - (content.length + 1) % 70 < content.length := by omega
  have hz : (content.length - (content.length + 1) % 70 + 1) % 70 = 0 := by omega
  have hmsg := hslot _ _ (List.getElem?_eq_getElem hk) (by omega)
  rw [hz] at hmsg
  rw [hmsg, List.getElem?_eq_getElem hk, Option.some.injEq, or_iff_right hlt]

/-- A record whose frame is answered: the index is not 0 at its end mark, and the frame fits the
buffer or the data byte that comes last on slot 0 is the start mark. -/
def Answerable (data : List UInt8) : Prop :=
  (data.length + 6) % 70 ≠ 0 ∧ (data.length + 6 < 70 ∨
    data[data.length - (data.length + 6) % 70]? = some hostMsgStart)

instance (data : List UInt8) : Decidable (Answerable data) := inferInstanceAs (Decidable (_ ∧ _))

theorem closes_data {r : Rx} {count addr : Nat} {data : List UInt8} :
    Closes (r.started.pushes
      (hostMsgFlashData :: UInt8.ofNat count :: (threeBytes addr ++ data))) ↔ Answerable data := by
  have hlen : (hostMsgFlashData :: UInt8.ofNat count :: (threeBytes addr ++ data)).length =
      data.length + 5 := by simp [threeBytes]
  rw [closes_started, Answerable, hlen]
  refine and_congr_right fun hne => ?_
  by_cases hlt : data.length + 6 < 70
  · exact iff_of_true (.inl (by omega)) (.inl hlt)
  · have hslot : data.length + 5 - (data.length + 5 + 1) % 70 =
        data.length - (data.length + 6) % 70 + 1 + 1 + 1 + 1 + 1 := by omega
    rw [or_iff_right (by omega), or_iff_right hlt, hslot]
    rfl

/-! ## Between two exchanges -/

variable {s : Nvm} {msg : Nat → UInt8} {file : List Line} {h : Host} {out : List UInt8}

/-- The states of a session between two exchanges. -/
abbrev Synced (C : HostCrypto) (L : Layout) (s : Nvm) (msg : Nat → UInt8) (file : List Line) :
    Host → Device → List UInt8 → Prop :=
  Sync (tool C) (bootloader L) (hostStart file) (sessionStart L s msg)

structure SyncInv (d : Device) (out : List UInt8) : Prop where
  receiver : d.running = true → d.rx.escaped = false
  request : out = [] ∨ ∃ content, out = encode uartMarks content

/-- What was answered is a frame, and the device was running before. -/
theorem SyncInv.answered {reply : UInt8} (H : SyncInv d (rs.map Rcv.byte))
    (hb : ((bootloader L).run d rs).2 = [reply]) :
    d.running = true ∧ d.rx.escaped = false ∧
      ∃ content, rs.map Rcv.byte = encode uartMarks content := by
  have hrun : d.running = true := by
    by_contra hdead
    rw [Server.run_dead (V := bootloader L) hdead] at hb
    cases hb
  refine ⟨hrun, H.receiver hrun, ?_⟩
  rcases H.request with hnil | hframe
  · obtain rfl := List.map_eq_nil_iff.mp hnil
    cases hb
  · exact hframe

theorem synced_inv (hs : Synced C L s msg file h d out) : SyncInv d out := by
  induction hs with
  | start => exact ⟨fun _ => rfl, .inl rfl⟩
  | act _ hact ih => exact ⟨ih.receiver, (hostAct_acted hact).framed⟩
  | @exchange k d is b _ _ hb ih =>
    obtain ⟨hrun, hesc, content, hcontent⟩ := ih.answered hb
    exact ⟨fun _ => (frame_answer hrun hesc hcontent).2.1, hostRecv_framed C k b⟩

theorem bootloader_polite (C : HostCrypto) (L : Layout) (s : Nvm) (msg : Nat → UInt8)
    (file : List Line) :
    Polite (tool C) (bootloader L) (hostStart file) (sessionStart L s msg) := by
  intro k d out hsync p hp
  by_cases hrun : d.running = true
  · rcases (synced_inv hsync).request with rfl | ⟨content, rfl⟩
    · obtain rfl := List.map_eq_nil_iff.mp (List.prefix_nil.mp hp)
      exact .inl rfl
    · obtain ⟨rest, hrest⟩ := hp
      have hmap : (p ++ received rest).map Rcv.byte = encode uartMarks content := by
        rw [List.map_append, received_byte]
        exact hrest
      obtain ⟨hans, -, hquiet⟩ := frame_answer (L := L) hrun ((synced_inv hsync).receiver hrun) hmap
      cases rest with
      | nil =>
        simp only [received, List.map_nil, List.append_nil] at hans hmap
        cases hans with
        | ignored _ _ _ hsent => exact .inl hsent
        | empty _ _ _ hsent => exact .inr ⟨hmap, _, hsent⟩
        | handled _ _ hsent =>
          obtain ⟨reply, hone⟩ := handleFrame_one
          exact .inr ⟨hmap, reply, hsent.trans hone⟩
      | cons b rest => exact .inl (hquiet p (List.prefix_append _ _) (by simp [received]))
  · exact .inl (by rw [Server.run_dead (V := bootloader L) hrun])

/-- What the tool can be waiting for while the device runs: the reply to a record it has just read,
or to the size or the signature. -/
theorem synced_waiting (hs : Synced C L s msg file h d out) (hwait : h.Waiting)
    (hrun : d.running = true) :
    (∃ h₀ data count addr, Synced C L s msg file h₀ d [] ∧ hostAct h₀ = some (h, out) ∧
        out = encodeData data count addr) ∨
      ∃ content, out = encode uartMarks content ∧ content.length ≤ 65 := by
  cases hs with
  | start => exact absurd hwait nofun
  | @act k _ _ _ hprev hact =>
    have hacted := hostAct_acted hact
    obtain ⟨vars, pc⟩ := h
    cases hacted with
    | quiet h1 h2 h3 =>
      cases pc with
      | waitData file => exact absurd rfl (h1 file)
      | waitSize => exact absurd rfl h2
      | waitSignat => exact absurd rfl h3
      | _ => exact absurd hwait nofun
    | data _ => exact .inl ⟨k, _, _, _, hprev, hact, rfl⟩
    | size => exact .inr ⟨_, encodeForUart_eq _, by simp [threeBytes]⟩
  | @exchange k d₀ is b hprev hwait₀ hb =>
    obtain ⟨hrun₀, hesc₀, content, hcontent⟩ := (synced_inv hprev).answered hb
    obtain ⟨hans, -⟩ := frame_answer (L := L) hrun₀ hesc₀ hcontent
    rw [hb] at hans
    obtain rfl := hans.answered.2 hrun
    obtain ⟨vars, pc⟩ := k
    cases pc with
    | waitSize =>
      refine .inr ⟨_, encodeForUart_eq _, ?_⟩
      simp [C.length_signDigest]
    | _ => exact absurd hwait nofun

/-- The tool is about to send the data of a record. -/
def Host.Sends (h : Host) (data : List UInt8) : Prop :=
  ∃ h' count addr, hostAct h = some (h', encodeData data count addr)

section
variable {c : Link}

/-- A record that is not answered leads to a deadlock. -/
theorem sends_deadlock (data : List UInt8) (hreach : Flashing C L s msg file c)
    (hrun : c.server.running = true) (hsend : c.client.Sends data) (hna : ¬ Answerable data) :
    ∃ c', Flashing C L s msg file c' ∧ Deadlock (tool C) (bootloader L) c' := by
  obtain ⟨h', count, addr, hact⟩ := hsend
  have hmid := reach_mid (tool_quiet C) (bootloader_polite C L s msg file) hreach
  obtain ⟨hsync, -, -⟩ := hmid.sync_of_act (tool_quiet C) hact
  have hframe : (received (encodeData data count addr)).map Rcv.byte = encode uartMarks
      (hostMsgFlashData :: UInt8.ofNat count :: (threeBytes addr ++ data)) :=
    received_byte.trans (encodeForUart_eq _)
  obtain ⟨hans, -⟩ := frame_answer (L := L) hrun ((synced_inv hsync).receiver hrun) hframe
  have hsent := hans.silent_iff.mpr (mt closes_data.mp hna)
  have hlive : ((bootloader L).run c.server
      (received (encodeData data count addr))).1.running = true := by
    cases hans with
    | ignored _ _ hr _ => exact hr
    | empty hc | handled hc => exact absurd (closes_data.mp hc) hna
  have hmap : (received (encodeData data count addr)).map Rcv.byte = encodeData data count addr :=
    received_byte
  have hsync' := hsync.act hact
  rw [← hmap] at hsync'
  exact (deadlock_iff (tool_quiet C) (bootloader_polite C L s msg file)).mpr
    ⟨h', c.server, _, hsync', (hostAct_acted hact).waiting encodeForUart_ne_nil, hlive, hsent⟩

end

/-- **Deadlock freedom**, exactly: no reachable state has the tool waiting for a reply, the device
waiting for a byte and nothing on the link, if and only if every record the tool is about to send to
a running device is one whose frame is answered. -/
theorem deadlock_free_iff (C : HostCrypto) (L : Layout) (s : Nvm) (msg : Nat → UInt8)
    (file : List Line) :
    (∀ c, Flashing C L s msg file c → ¬ Deadlock (tool C) (bootloader L) c) ↔
      ∀ c, Flashing C L s msg file c → c.server.running = true →
        ∀ data, c.client.Sends data → Answerable data := by
  constructor
  · intro hfree c hreach hrun data hsend
    by_contra hna
    obtain ⟨c', hc', hstuck⟩ := sends_deadlock data hreach hrun hsend hna
    exact hfree c' hc' hstuck
  · intro hall c hreach hstuck
    obtain ⟨h, d, is, hsync, hwait, hlive, hsent⟩ :=
      (deadlock_iff (tool_quiet C) (bootloader_polite C L s msg file)).mp ⟨c, hreach, hstuck⟩
    have hrun : d.running = true := Server.live_of_run (V := bootloader L) hlive
    have hesc := (synced_inv hsync).receiver hrun
    rcases synced_waiting hsync hwait hrun with
      ⟨h₀, data, count, addr, hprev, hact, hout⟩ | ⟨content, hout, hlen⟩
    · have hans := (frame_answer (L := L) hrun hesc (hout.trans (encodeForUart_eq _))).1
      rw [hout] at hact
      exact hans.silent_iff.mp hsent (closes_data.mpr
        (hall _ (hprev.reach (bootloader_polite C L s msg file)) hrun data ⟨h, count, addr, hact⟩))
    · have hans := (frame_answer (L := L) hrun hesc hout).1
      exact hans.silent_iff.mp hsent (closes_started.mpr ⟨by omega, .inl (by omega)⟩)

/-- A HEX file with one record of 64 zero bytes at address 0. -/
def zeroFile : List Line :=
  [[':', '4', '0', '0', '0', '0', '0', '0', '0'] ++ List.replicate 128 '0' ++ ['C', '0', '\n'],
    [':', '0', '0', '0', '0', '0', '0', '0', '1', 'F', 'F', '\n']]

theorem zeroFile_deadlock : ¬ ∀ c,
    Flashing default pic18f25k22 (.powerUp vectorFlash) (fun _ => 0) zeroFile c →
      ¬ Deadlock (tool default) (bootloader pic18f25k22) c := by
  intro hfree
  have hstart : Flashing default pic18f25k22 (.powerUp vectorFlash) (fun _ => 0) zeroFile
    ⟨hostStart zeroFile, sessionStart pic18f25k22 (.powerUp vectorFlash) fun _ => 0, [], []⟩ :=
    .refl
  have hsend : (hostStart zeroFile).Sends (List.replicate 64 0) := ⟨_, 64, 0, rfl⟩
  obtain ⟨c, hreach, hstuck⟩ := sends_deadlock _ hstart rfl hsend (by decide)
  exact hfree c hreach hstuck

end Pic18Boot
