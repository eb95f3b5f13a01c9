import Pic18Boot.Theory.Transition
import Pic18Boot.Model.Handshake
import Pic18Boot.Verify.Session

/-! # Host and device agree on the handshake

While no start mark of a handshake message can reach `fw_receive`, the first session is the only one
and `fw_receive` decodes nothing (`HandshakeInv`), so a host that has read the whole reply finds the
device waiting for its first command (`handshake_agreement`). A retry that the device hears after
its reply breaks this (`retry_resets_device`). -/

namespace Pic18Boot
open Transition

variable {uECCVerify : List UInt8 → List UInt8 → List UInt8 → Bool} {L : Layout} {s : Nvm}
  {c c' : Handshake} {d : Device} {l : Label} {b : UInt8} {rest : List UInt8}

/-- The bytes the host has read in this round. -/
def HostPhase.got : HostPhase → List (UInt8 × Nat)
  | .sending _ => []
  | .reading got | .left got => got

def HostPhase.isLeft : HostPhase → Bool
  | .left _ => true
  | _ => false

theorem HostPhase.isLeft_iff {h : HostPhase} : h.isLeft ↔ ∃ reply, h = .left reply := by
  cases h <;> simp [isLeft]

/-- Host and device agree once the host has left its loop: the reply is that of the device's
session, in whose `fw_receive` nothing has been decoded, and what is still on its way to the device
comes to no call and leaves it between two frames. -/
structure HandshakeDone (L : Layout) (c : Handshake) (reply : List (UInt8 × Nat)) (d : Device) :
    Prop where
  receiving : c.device = .receiving d
  session : ∀ x ∈ reply, x.2 = c.session
  decoded : c.decoded = 0
  pending : ∀ rs, rs.map Rcv.byte = c.fifo ++ c.wire →
    (∀ x ∈ (deviceFeed L d rs).2, x.handled = none) ∧
      (deviceFeed L d rs).1.running = true ∧ (deviceFeed L d rs).1.rx.escaped = false

def Agreement (L : Layout) (c : Handshake) : Prop :=
  ∀ reply, c.host = .left reply → ∃ d, HandshakeDone L c reply d

def DevicePhase.isReceiving : DevicePhase → Bool
  | .receiving _ => true
  | _ => false

/-- The whole reply has been sent and the receiver is still off. -/
def DevicePhase.hasReplied : DevicePhase → Bool
  | .replying [] => true
  | _ => false

/-- The next byte the host writes begins a message. -/
def Handshake.begins (c : Handshake) : Bool :=
  match c.host with
  | .sending rest => rest == hostHandshakeMsg
  | _ => false

/-- The next byte the host reads completes the reply. -/
def Handshake.completes (c : Handshake) : Bool :=
  match c.host, c.down with
  | .reading got, b :: _ => (got ++ [b]).map Prod.fst == mcuHandshakeResp
  | _, _ => false

/-- The order of steps under which they agree: the host does not begin a message while the device is
in `fw_receive`, the device does not switch its receiver on while a start mark is on its way, and
the host does not read the last byte of the reply before the device has called `fw_receive`. -/
def Timely : Label → Handshake → Prop
  | .send, c => c.begins → ¬ c.device.isReceiving
  | .read, c => c.completes → ¬ c.device.hasReplied
  | .enable _, c => hostMsgStart ∉ c.fifo ++ c.wire
  | _, _ => True

instance : (l : Label) → (c : Handshake) → Decidable (Timely l c)
  | .send, c => inferInstanceAs (Decidable (c.begins → ¬ c.device.isReceiving))
  | .read, c => inferInstanceAs (Decidable (c.completes → ¬ c.device.hasReplied))
  | .enable _, c => inferInstanceAs (Decidable (hostMsgStart ∉ c.fifo ++ c.wire))
  | .giveUp, _ | .arrive, _ | .boot, _ | .expect, _ | .timeout, _ | .check, _ | .restart, _
  | .disable, _ | .erase, _ | .reply, _ | .receive _, _ => isTrue trivial

/-! ## `fw_receive` without start marks -/

/-- A receiver that takes no byte other than a start mark as part of a frame. -/
structure Deaf (d : Device) : Prop where
  running : d.running = true
  escaped : d.rx.escaped = false
  idle : d.rx.i = 0 ∨ d.rx.msg 0 ≠ hostMsgStart

theorem Deaf.byte {r : Rcv} (H : Deaf d) (hstart : r.byte ≠ hostMsgStart)
    (hesc : r.byte ≠ hostMsgEsc) :
    Deaf (fwReceiveByte L d r).1 ∧ (fwReceiveByte L d r).2 = ⟨none, []⟩ := by
  rw [fwReceiveByte_more H.running (rxByte_plain H.escaped hesc hstart fun _ => H.idle)]
  refine ⟨⟨H.running, rfl, ?_⟩, rfl⟩
  right
  change Function.update d.rx.msg d.rx.i r.byte 0 ≠ hostMsgStart
  rcases Nat.eq_zero_or_pos d.rx.i with hi | hi
  · rw [hi, Function.update_self]
    exact hstart
  · rw [Function.update_of_ne (by omega)]
    exact H.idle.resolve_left (by omega)

theorem Deaf.feed {rs : List Rcv} (H : Deaf d)
    (hrs : ∀ b ∈ rs.map Rcv.byte, b ≠ hostMsgStart ∧ b ≠ hostMsgEsc) :
    Deaf (deviceFeed L d rs).1 ∧ ∀ x ∈ (deviceFeed L d rs).2, x.handled = none := by
  induction rs generalizing d with
  | nil => exact ⟨H, nofun⟩
  | cons r rs ih =>
    obtain ⟨hstart, hesc⟩ := hrs r.byte List.mem_cons_self
    obtain ⟨hdeaf, hquiet⟩ := H.byte (L := L) hstart hesc
    obtain ⟨hend, hnone⟩ := ih hdeaf fun b hb => hrs b (List.mem_cons_of_mem _ hb)
    refine ⟨hend, fun x hx => ?_⟩
    rcases List.mem_cons.mp hx with rfl | hx
    · rw [hquiet]
    · exact hnone x hx

/-! ## The invariant -/

/-- The bytes sent in a session that the host has not dropped. -/
def Handshake.unread (c : Handshake) : Nat :=
  (c.host.got ++ c.down).countP fun x => 0 < x.2

theorem Handshake.unread_sent (hhost : c'.host = c.host)
    (hdown : c'.down = c.down ++ [(b, c.session)]) (hsession : 0 < c.session) :
    c'.unread = c.unread + 1 := by
  rw [unread, unread, hhost, hdown, ← List.append_assoc, List.countP_append, List.countP_singleton,
    if_pos (decide_eq_true hsession)]

/-- What holds of the sessions in each phase of the device. No byte of the reply is there twice. -/
def PhaseInv (c : Handshake) : Prop :=
  match c.device with
  | .booting | .listening _ | .checking | .userCode => c.session = 0
  | .expected | .erasing => c.session = 1 ∧ c.decoded = 0 ∧ c.unread = 0
  | .replying rest => c.session = 1 ∧ c.decoded = 0 ∧ c.unread + rest.length ≤ 4
  | .receiving d =>
    c.session = 1 ∧ c.decoded = 0 ∧ Deaf d ∧ hostMsgStart ∉ c.fifo ++ c.wire

structure HandshakeInv (c : Handshake) : Prop where
  /-- Only handshake bytes go to the device. -/
  up : ∀ b ∈ c.fifo ++ c.wire, b ∈ hostHandshakeMsg
  sending : ∀ rest, c.host = .sending rest → rest <:+ hostHandshakeMsg
  /-- What is sent outside a session is no reply. -/
  down : ∀ x ∈ c.host.got ++ c.down, x.2 ≤ c.session ∧ (x.2 = 0 → x.1 ≠ hostMsgStart)
  ordered : (c.host.got ++ c.down).Pairwise fun x y => x.2 ≤ y.2
  left : ∀ reply, c.host = .left reply →
    reply.map Prod.fst = mcuHandshakeResp ∧ ∃ d, c.device = .receiving d
  phase : PhaseInv c

theorem HandshakeInv.start : HandshakeInv (.start s) where
  up := nofun
  sending rest h := by
    cases h
    exact List.suffix_refl _
  down := nofun
  ordered := .nil
  left := nofun
  phase := rfl

/-- After its first byte the message has no start mark. -/
theorem start_not_mem_suffix (h : rest <:+ hostHandshakeMsg) (hne : rest ≠ hostHandshakeMsg) :
    hostMsgStart ∉ rest := by
  rcases List.suffix_cons_iff.mp h with heq | htail
  · exact absurd heq hne
  · intro hmem
    exact absurd (htail.subset hmem) (by decide)

theorem HandshakeInv.unread_eq_zero (H : HandshakeInv c) (hsession : c.session = 0) :
    c.unread = 0 := by
  refine List.countP_eq_zero.mpr fun x hx => ?_
  have hle := (H.down x hx).1
  simp only [decide_eq_true_eq]
  omega

/-- A whole reply begins with a byte that is sent in a session only, and ends in that session. -/
theorem HandshakeInv.reply_session {reply down : List (UInt8 × Nat)} (H : HandshakeInv c)
    (hqueue : c.host.got ++ c.down = reply ++ down)
    (hresp : reply.map Prod.fst = mcuHandshakeResp) : ∀ x ∈ reply, 0 < x.2 := by
  intro x hx
  obtain ⟨y, ys, rfl⟩ : ∃ y ys, reply = y :: ys := by
    cases reply with
    | nil => cases hresp
    | cons y ys => exact ⟨y, ys, rfl⟩
  have hy := H.down y (hqueue ▸ List.mem_cons_self)
  have hy0 : y.2 ≠ 0 := fun h0 => hy.2 h0 (List.cons.inj hresp).1
  have hyx : y.2 ≤ x.2 := by
    rcases List.mem_cons.mp hx with rfl | hx
    · exact Nat.le_refl _
    · have hord := (List.pairwise_append.mp (hqueue ▸ H.ordered)).1
      exact (List.pairwise_cons.mp hord).1 x hx
  omega

/-- The whole reply is there only after the device has sent its last byte. -/
theorem HandshakeInv.replied {reply down : List (UInt8 × Nat)} (H : HandshakeInv c)
    (hqueue : c.host.got ++ c.down = reply ++ down)
    (hresp : reply.map Prod.fst = mcuHandshakeResp) :
    (∃ d, c.device = .receiving d) ∨ c.device.hasReplied := by
  have hpos := H.reply_session hqueue hresp
  have hlen : reply.length = 4 := by
    rw [← List.length_map Prod.fst, hresp]
    rfl
  have hunread : 4 ≤ c.unread := by
    rw [Handshake.unread, hqueue, List.countP_append, ← hlen]
    refine Nat.le_trans (Nat.le_of_eq (List.countP_eq_length.mpr ?_).symm) (Nat.le_add_right _ _)
    exact fun x hx => decide_eq_true (hpos x hx)
  have hsession : c.session ≠ 0 := by
    intro h0
    rw [H.unread_eq_zero h0] at hunread
    omega
  have hphase := H.phase
  unfold PhaseInv at hphase
  split at hphase
  · exact absurd hphase hsession
  · exact absurd hphase hsession
  · exact absurd hphase hsession
  · exact absurd hphase hsession
  · omega
  · omega
  · next rest hdev =>
    have hrest : rest = [] := List.length_eq_zero_iff.mp (by omega)
    right
    rw [hdev, hrest]
    rfl
  · next d hdev => exact .inl ⟨d, hdev⟩

/-- No other byte of the handshake begins a frame or is an escape. -/
theorem HandshakeInv.plain (H : HandshakeInv c) (hfree : hostMsgStart ∉ c.fifo ++ c.wire)
    (hb : b ∈ c.fifo ++ c.wire) : b ≠ hostMsgStart ∧ b ≠ hostMsgEsc := by
  refine ⟨fun h => hfree (h ▸ hb), fun h => ?_⟩
  have hmem := H.up b hb
  rw [h] at hmem
  exact absurd hmem (by decide)

theorem HandshakeInv.agreement (H : HandshakeInv c) : Agreement L c := by
  intro reply hleft
  obtain ⟨hresp, d, hdev⟩ := H.left reply hleft
  have hphase := H.phase
  rw [PhaseInv, hdev] at hphase
  obtain ⟨hsession, hdecoded, hdeaf, hfree⟩ := hphase
  have hgot : c.host.got = reply := by rw [hleft]; rfl
  refine ⟨d, hdev, fun x hx => ?_, hdecoded, fun rs hrs => ?_⟩
  · have hle := (H.down x (List.mem_append_left _ (hgot ▸ hx))).1
    have hpos := H.reply_session (congrArg (· ++ c.down) hgot) hresp x hx
    omega
  · have hbytes : ∀ b ∈ rs.map Rcv.byte, b ≠ hostMsgStart ∧ b ≠ hostMsgEsc := by
      intro b hb
      rw [hrs] at hb
      exact H.plain hfree hb
    obtain ⟨hdeaf', hnone⟩ := hdeaf.feed (L := L) hbytes
    exact ⟨hnone, hdeaf'.running, hdeaf'.escaped⟩

/-! ## Steps of the host -/

/-- A step that leaves the device where it is. -/
theorem PhaseInv.keep (H : PhaseInv c) (hdev : c'.device = c.device)
    (hsession : c'.session = c.session) (hdecoded : c'.decoded = c.decoded)
    (hunread : c'.unread ≤ c.unread)
    (hfree : ∀ d, c.device = .receiving d → hostMsgStart ∉ c.fifo ++ c.wire →
      hostMsgStart ∉ c'.fifo ++ c'.wire) : PhaseInv c' := by
  unfold PhaseInv at H ⊢
  rw [hdev, hsession, hdecoded]
  split at H
  all_goals try exact H
  · exact ⟨H.1, H.2.1, by omega⟩
  · exact ⟨H.1, H.2.1, by omega⟩
  · exact ⟨H.1, H.2.1, by omega⟩
  · next d hd =>
    obtain ⟨h1, h0, hdeaf, hnot⟩ := H
    exact ⟨h1, h0, hdeaf, hfree d hd hnot⟩

theorem HandshakeInv.send (H : HandshakeInv c) (ht : Timely .send c) (hs : c.send = some c') :
    HandshakeInv c' := by
  unfold Handshake.send at hs
  split at hs
  · next b rest hhost =>
    cases hs
    have hsuffix := H.sending _ hhost
    have hgot : (if rest = [] then HostPhase.reading [] else .sending rest).got = c.host.got := by
      rw [hhost]
      split <;> rfl
    constructor
    · intro x hx
      rw [← List.append_assoc] at hx
      rcases List.mem_append.mp hx with hx | hx
      · exact H.up x hx
      · rw [List.mem_singleton.mp hx]
        exact hsuffix.subset List.mem_cons_self
    · intro rest' h
      dsimp only at h
      split at h
      · cases h
      · cases h
        exact (List.suffix_cons b rest).trans hsuffix
    · dsimp only
      rw [hgot]
      exact H.down
    · dsimp only
      rw [hgot]
      exact H.ordered
    · intro reply h
      dsimp only at h
      split at h <;> cases h
    · have hunread : (c.host.got ++ c.down).countP (fun x => decide (0 < x.2)) ≤ c.unread :=
        Nat.le_refl _
      rw [← hgot] at hunread
      refine H.phase.keep rfl rfl rfl hunread fun d hd hfree hmem => ?_
      -- the message was begun before the receiver was switched on
      have hne : b :: rest ≠ hostHandshakeMsg := by
        intro heq
        refine ht ?_ (by rw [hd]; rfl)
        rw [Handshake.begins, hhost, heq]
        exact beq_self_eq_true _
      rw [← List.append_assoc] at hmem
      rcases List.mem_append.mp hmem with hmem | hmem
      · exact hfree hmem
      · rw [List.mem_singleton] at hmem
        exact start_not_mem_suffix hsuffix hne (hmem ▸ List.mem_cons_self)
  · cases hs

theorem HandshakeInv.read (H : HandshakeInv c) (ht : Timely .read c) (hs : c.read = some c') :
    HandshakeInv c' := by
  unfold Handshake.read at hs
  split at hs
  · next got b down hhost hdown =>
    cases hs
    have hqueue : c.host.got ++ c.down = got ++ [b] ++ down := by
      rw [hhost, hdown, List.append_assoc]
      rfl
    have hdownInv := hqueue ▸ H.down
    have hordered := hqueue ▸ H.ordered
    have hunread : c.unread = (got ++ [b] ++ down).countP fun x => decide (0 < x.2) := by
      rw [Handshake.unread, hqueue]
    have hkept (host : HostPhase)
        (hle : (host.got ++ down).countP (fun x => decide (0 < x.2)) ≤ c.unread) :
        PhaseInv { c with host := host, down := down } :=
      H.phase.keep rfl rfl rfl hle fun _ _ => id
    -- a round that ends without the reply drops what it has read
    by_cases hmore : (got ++ [b]).length < 4
    · simp only [if_pos hmore]
      exact ⟨H.up, nofun, hdownInv, hordered, nofun, hkept _ (Nat.le_of_eq hunread.symm)⟩
    by_cases hresp : (got ++ [b]).map Prod.fst = mcuHandshakeResp
    · simp only [if_neg hmore, if_pos hresp]
      refine ⟨H.up, nofun, hdownInv, hordered, fun reply h => ?_,
        hkept _ (Nat.le_of_eq hunread.symm)⟩
      cases h
      have hcompletes : c.completes := by
        rw [Handshake.completes, hhost, hdown]
        exact beq_iff_eq.mpr hresp
      exact ⟨hresp, (H.replied hqueue hresp).resolve_right (ht hcompletes)⟩
    · simp only [if_neg hmore, if_neg hresp]
      refine ⟨H.up, fun rest h => ?_, fun x hx => hdownInv x (List.mem_append_right _ hx),
        (List.pairwise_append.mp hordered).2.1, nofun, hkept _ ?_⟩
      · cases h
        exact List.suffix_refl _
      · rw [hunread]
        exact (List.suffix_append _ _).sublist.countP_le
  · cases hs

theorem HandshakeInv.giveUp (H : HandshakeInv c) (hs : c.giveUp = some c') : HandshakeInv c' := by
  unfold Handshake.giveUp at hs
  split at hs
  · next got hhost =>
    cases hs
    refine ⟨H.up, fun rest h => ?_, fun x hx => H.down x (List.mem_append_right _ hx),
      (List.pairwise_append.mp H.ordered).2.1, nofun, H.phase.keep rfl rfl rfl ?_ fun _ _ => id⟩
    · cases h
      exact List.suffix_refl _
    · exact (List.suffix_append _ _).sublist.countP_le
  · cases hs

/-! ## Steps of the device -/

/-- The host leaves its loop only once the device is in `fw_receive`. -/
theorem HandshakeInv.not_left {reply : List (UInt8 × Nat)} (H : HandshakeInv c)
    (hdev : c.device.isReceiving = false) : c.host ≠ .left reply := by
  intro h
  obtain ⟨-, d, hd⟩ := H.left reply h
  rw [hd] at hdev
  cases hdev

/-- A step of the device that neither reads nor sends. -/
theorem HandshakeInv.move (H : HandshakeInv c) (hhost : c'.host = c.host)
    (hbytes : ∀ b ∈ c'.fifo ++ c'.wire, b ∈ c.fifo ++ c.wire) (hdown : c'.down = c.down)
    (hsession : c.session ≤ c'.session) (hdev : c.device.isReceiving = false)
    (hphase : PhaseInv c') : HandshakeInv c' := by
  refine ⟨fun b hb => H.up b (hbytes b hb), fun rest h => H.sending rest (hhost ▸ h), ?_, ?_, ?_,
    hphase⟩
  · rw [hhost, hdown]
    intro x hx
    have hx' := H.down x hx
    exact ⟨Nat.le_trans hx'.1 hsession, hx'.2⟩
  · rw [hhost, hdown]
    exact H.ordered
  · intro reply h
    exact absurd (hhost ▸ h) (H.not_left hdev)

/-- A step of the device that sends one byte of its session. -/
theorem HandshakeInv.sent (H : HandshakeInv c) (hhost : c'.host = c.host)
    (hbytes : ∀ b ∈ c'.fifo ++ c'.wire, b ∈ c.fifo ++ c.wire)
    (hdown : c'.down = c.down ++ [(b, c.session)]) (hsession : c'.session = c.session)
    (hb : c.session = 0 → b ≠ hostMsgStart) (hdev : c.device.isReceiving = false)
    (hphase : PhaseInv c') : HandshakeInv c' := by
  refine ⟨fun b hb => H.up b (hbytes b hb), fun rest h => H.sending rest (hhost ▸ h), ?_, ?_, ?_,
    hphase⟩
  · rw [hhost, hdown, hsession, ← List.append_assoc]
    intro x hx
    rcases List.mem_append.mp hx with hx | hx
    · exact H.down x hx
    · rw [List.mem_singleton.mp hx]
      exact ⟨Nat.le_refl _, hb⟩
  · rw [hhost, hdown, ← List.append_assoc]
    refine List.pairwise_append.mpr ⟨H.ordered, List.pairwise_singleton _ _, fun x hx y hy => ?_⟩
    rw [List.mem_singleton.mp hy]
    exact (H.down x hx).1
  · intro reply h
    exact absurd (hhost ▸ h) (H.not_left hdev)

theorem HandshakeInv.arrive (H : HandshakeInv c) (hs : c.arrive = some c') : HandshakeInv c' := by
  unfold Handshake.arrive at hs
  split at hs
  · next b wire hwire =>
    cases hs
    have hbytes : ∀ x ∈ (if c.device.rxOn then c.fifo ++ [b] else c.fifo) ++ wire,
        x ∈ c.fifo ++ c.wire := by
      intro x hx
      rw [hwire]
      split at hx
      · rwa [List.append_assoc] at hx
      · rcases List.mem_append.mp hx with hx | hx
        · exact List.mem_append_left _ hx
        · exact List.mem_append_right _ (List.mem_cons_of_mem _ hx)
    exact ⟨fun x hx => H.up x (hbytes x hx), H.sending, H.down, H.ordered, H.left,
      H.phase.keep rfl rfl rfl (Nat.le_refl _) fun _ _ hfree hmem => hfree (hbytes _ hmem)⟩
  · cases hs

theorem HandshakeInv.expect (H : HandshakeInv c) (hs : c.expect = some c') : HandshakeInv c' := by
  unfold Handshake.expect at hs
  split at hs
  · next i b fifo hdev hfifo =>
    have hbytes : ∀ x ∈ fifo ++ c.wire, x ∈ c.fifo ++ c.wire := fun x hx => by
      rw [hfifo]
      exact List.mem_cons_of_mem _ hx
    have hphase := H.phase
    rw [PhaseInv, hdev] at hphase
    have hoff : c.device.isReceiving = false := by
      rw [hdev]
      rfl
    dsimp only at hs
    split at hs
    · cases hs
      exact H.move rfl hbytes rfl (Nat.le_succ _) hoff
        ⟨congrArg (· + 1) hphase, rfl, H.unread_eq_zero hphase⟩
    · cases hs
      exact H.move rfl hbytes rfl (Nat.le_refl _) hoff hphase
  · cases hs

theorem HandshakeInv.check (H : HandshakeInv c) (hs : c.check uECCVerify L = some c') :
    HandshakeInv c' := by
  unfold Handshake.check at hs
  split at hs
  · next hdev =>
    have hphase := H.phase
    rw [PhaseInv, hdev] at hphase
    have hoff : c.device.isReceiving = false := by
      rw [hdev]
      rfl
    dsimp only at hs
    split at hs
    · cases hs
      exact H.sent rfl (fun _ => id) rfl rfl (fun _ => by decide) hoff hphase
    · cases hs
      exact H.sent rfl (fun _ hx => List.mem_append_right _ hx) rfl rfl (fun _ => by decide) hoff
        hphase
  · cases hs

theorem HandshakeInv.reply (H : HandshakeInv c) (hs : c.reply = some c') : HandshakeInv c' := by
  unfold Handshake.reply at hs
  split at hs
  · next b rest hdev =>
    cases hs
    have hphase := H.phase
    rw [PhaseInv, hdev] at hphase
    obtain ⟨hsession, hdecoded, hunread⟩ := hphase
    refine H.sent rfl (fun _ => id) rfl rfl (fun h0 => ?_) ?_ ⟨hsession, hdecoded, ?_⟩
    · exact absurd (hsession.symm.trans h0) (by decide)
    · rw [hdev]
      rfl
    · have hpos : 0 < c.session := by omega
      rw [List.length_cons] at hunread
      refine Nat.le_trans (Nat.add_le_add_right ?_ rest.length)
        (show c.unread + 1 + rest.length ≤ 4 by omega)
      exact Nat.le_of_eq (Handshake.unread_sent rfl rfl hpos)
  · cases hs

theorem HandshakeInv.receive {ram : Ram} (H : HandshakeInv c) (hs : c.receive L ram = some c') :
    HandshakeInv c' := by
  unfold Handshake.receive at hs
  split at hs
  · next d b fifo hdev hfifo =>
    have hphase := H.phase
    rw [PhaseInv, hdev] at hphase
    obtain ⟨hsession, hdecoded, hdeaf, hfree⟩ := hphase
    have hmem : b ∈ c.fifo ++ c.wire := by
      rw [hfifo]
      exact List.mem_cons_self
    obtain ⟨hstart, hesc⟩ := H.plain hfree hmem
    obtain ⟨hdeaf', hquiet⟩ := hdeaf.byte (L := L) (r := ⟨b, ram⟩) hstart hesc
    dsimp only at hs
    rw [hquiet, if_pos hdeaf'.running, if_pos hdeaf'.running] at hs
    cases hs
    have hbytes : ∀ x ∈ fifo ++ c.wire, x ∈ c.fifo ++ c.wire := fun x hx => by
      rw [hfifo]
      exact List.mem_cons_of_mem _ hx
    refine ⟨fun x hx => H.up x (hbytes x hx), H.sending, ?_, ?_, fun reply h => ?_,
      ⟨hsession, hdecoded, hdeaf', fun hmem => hfree (hbytes _ hmem)⟩⟩
    · rw [List.map_nil, List.append_nil]
      exact H.down
    · rw [List.map_nil, List.append_nil]
      exact H.ordered
    · exact ⟨(H.left reply h).1, _, rfl⟩
  · cases hs

/-- **What a timely step preserves.** -/
theorem HandshakeInv.step (H : HandshakeInv c) (ht : Timely l c)
    (hs : c.step uECCVerify L l = some c') : HandshakeInv c' := by
  have hphase := H.phase
  unfold PhaseInv at hphase
  cases l with
  | send => exact H.send ht hs
  | read => exact H.read ht hs
  | giveUp => exact H.giveUp hs
  | arrive => exact H.arrive hs
  | expect => exact H.expect hs
  | check => exact H.check hs
  | reply => exact H.reply hs
  | receive ram => exact H.receive hs
  | boot | timeout | disable =>
    simp only [Handshake.step] at hs
    split at hs
    · next hdev =>
      cases hs
      rw [hdev] at hphase
      exact H.move rfl (fun _ => id) rfl (Nat.le_refl _) (by rw [hdev]; rfl) hphase
    · cases hs
  | erase =>
    simp only [Handshake.step] at hs
    split at hs
    · next hdev =>
      cases hs
      rw [hdev] at hphase
      obtain ⟨hsession, hdecoded, hunread⟩ := hphase
      have hroom : c.unread + mcuHandshakeResp.length ≤ 4 := by
        rw [hunread]
        decide
      exact H.move rfl (fun _ => id) rfl (Nat.le_refl _) (by rw [hdev]; rfl)
        ⟨hsession, hdecoded, hroom⟩
    · cases hs
  | restart =>
    simp only [Handshake.step] at hs
    split at hs
    · next hdev =>
      cases hs
      rw [hdev] at hphase
      exact H.move rfl (fun _ hx => List.mem_append_right _ hx) rfl (Nat.le_refl _)
        (by rw [hdev]; rfl) hphase
    · cases hs
  | enable msg =>
    simp only [Handshake.step] at hs
    split at hs
    · next hdev =>
      cases hs
      rw [hdev] at hphase
      exact H.move rfl (fun _ => id) rfl (Nat.le_refl _) (by rw [hdev]; rfl)
        ⟨hphase.1, hphase.2.1, ⟨rfl, rfl, .inl rfl⟩, ht⟩
    · cases hs

/-- **Handshake agreement**: in every run whose steps are timely, a host that has left its loop has
the reply of the session the device is in, and the device decodes nothing of the handshake. -/
theorem handshake_agreement (uECCVerify : List UInt8 → List UInt8 → List UInt8 → Bool)
    (L : Layout) (s : Nvm) (c : Handshake)
    (h : Reach (Handshake.step uECCVerify L) Timely (.start s) c) : Agreement L c :=
  (h.invariant HandshakeInv.start fun _ _ _ H ht hs => H.step ht hs).agreement

/-- The first command of a host that agrees is decoded as it is, whatever is left of the
handshake. -/
theorem HandshakeDone.first_command {reply : List (UInt8 × Nat)} {rs is : List Rcv} {cmd : Command}
    (H : HandshakeDone L c reply d) (hrs : rs.map Rcv.byte = c.fifo ++ c.wire)
    (hlen : cmd.payload.length ≤ 67) (his : is.map Rcv.byte = cmd.encode) :
    calls (deviceFeed L d (rs ++ is)).2 = [cmd] := by
  obtain ⟨hnone, hrunning, hescaped⟩ := H.pending rs hrs
  have hquiet : calls (deviceFeed L d rs).2 = [] := by
    refine List.filterMap_eq_nil_iff.mpr fun x hx => ?_
    rw [hnone x hx]
    rfl
  rw [deviceFeed_append, calls_append, hquiet, List.nil_append]
  exact (calls_frame hrunning hescaped hlen his).1

/-- The device hears the message, erases, and answers it before the host retries. -/
def promptLabels : List Label := List.flatten
  [[.boot], .replicate 5 .send, .replicate 5 .arrive, .replicate 5 .expect, [.disable, .erase],
    .replicate 4 .reply, [.enable fun _ => 0], .replicate 4 .read]

theorem prompt_agreement : ∃ c reply,
    Reach (Handshake.step (fun _ _ _ => true) pic18f25k22) Timely
        (.start (.powerUp vectorFlash)) c ∧
      c.host = .left reply ∧ ∃ d, HandshakeDone pic18f25k22 c reply d := by
  have hrun : (exec (Handshake.step (fun _ _ _ => true) pic18f25k22) Timely promptLabels
      (.start (.powerUp vectorFlash))).map (fun c => c.host.isLeft) = some true := by decide
  obtain ⟨c, hreach, hleft⟩ := exists_reach hrun
  obtain ⟨reply, hleft⟩ := HostPhase.isLeft_iff.mp hleft
  exact ⟨c, reply, hreach, hleft, handshake_agreement _ _ _ c hreach reply hleft⟩

/-- The host gives up while the device erases, and sends the message again after the receiver has
been switched on; then it reads the reply. -/
def retryLabels : List Label := List.flatten
  [[.boot], .replicate 5 .send, .replicate 5 .arrive, .replicate 5 .expect,
    [.disable, .erase, .giveUp], .replicate 4 .reply, [.enable fun _ => 0], .replicate 5 .send,
    .replicate 5 .arrive, .replicate 5 (.receive ⟨fun _ => 0, fun _ => 0⟩), .replicate 4 .read]

/-- The device takes the message for a command and resets, and the host starts flashing. -/
theorem retry_resets_device : ∃ c,
    Reach (Handshake.step (fun _ _ _ => true) pic18f25k22) (fun _ _ => True)
      (.start (.powerUp vectorFlash)) c ∧
    c.device.isReceiving = false ∧ c.decoded = 1 ∧ ¬ Agreement pic18f25k22 c := by
  have hrun : (exec (Handshake.step (fun _ _ _ => true) pic18f25k22) (fun _ _ => True) retryLabels
      (.start (.powerUp vectorFlash))).map
        (fun c => c.host.isLeft && (!c.device.isReceiving && c.decoded == 1)) = some true := by
    decide
  obtain ⟨c, hreach, hend⟩ := exists_reach hrun
  obtain ⟨hleft, hend⟩ := Bool.and_eq_true_iff.mp hend
  obtain ⟨hdev, hdecoded⟩ := Bool.and_eq_true_iff.mp hend
  obtain ⟨reply, hleft⟩ := HostPhase.isLeft_iff.mp hleft
  have hdev : c.device.isReceiving = false := by simpa using hdev
  refine ⟨c, hreach, hdev, beq_iff_eq.mp hdecoded, fun h => ?_⟩
  obtain ⟨d, hdone⟩ := h reply hleft
  rw [hdone.receiving] at hdev
  cases hdev

end Pic18Boot
