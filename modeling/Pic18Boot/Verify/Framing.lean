import Pic18Boot.Verify.Receive

/-! # Frames on the wire and calls of `message_handle`

A frame the host encodes is delivered, once and complete, from every receiver state without a
pending escape (`encoded_delivered`). Conversely the calls of a stream are its frames exactly as
long as no escaped start mark arrives at index 0 (`framing_sound_iff`). -/

namespace Pic18Boot
open Framing

variable {L : Layout} {d : Device} {rs : List Rcv} {op : UInt8} {payload : List UInt8}

/-! ## Delivery -/

/-- The buffer after a frame that fits is read back by the call. -/
theorem call_started (op : UInt8) (r : Rx) (ram : Ram) (hlen : payload.length ≤ 67) :
    let m := (r.started.pushes (op :: payload)).stopped.call ram payload.length
    m.op = op ∧ m.len = payload.length ∧ m.received = payload := by
  obtain ⟨hi, hmsg, -⟩ := pushes_started (r := r) (op :: payload)
  have hslot : ∀ k c, (op :: payload)[k]? = some c →
      (r.started.pushes (op :: payload)).stopped.msg (k + 1) = c := by
    intro k c hk
    have hlt := (List.getElem?_eq_some_iff.mp hk).1
    simp only [List.length_cons] at hlt hi
    have := hmsg k c hk (by simp only [List.length_cons]; omega)
    rw [Nat.mod_eq_of_lt (by omega)] at this
    simp only [Rx.stopped, hi]
    rw [Function.update_of_ne (by omega), this]
  refine ⟨hslot 0 op rfl, rfl, Buf.toList_eq_of_getElem? rfl fun k hk => ?_⟩
  have hk' : k < payload.length := hk
  simp only [Rx.call, sizeofMsg, if_pos (show 2 + k < 70 by omega)]
  rw [List.getElem?_eq_getElem hk', Option.some.injEq, Nat.add_comm 2 k]
  exact (hslot (k + 1) _ (by simp [hk'])).symm

/-- An encoded frame that fits comes to one call, on its last byte. -/
theorem deviceFeed_frame (hrun : d.running = true) (hesc : d.rx.escaped = false)
    (hlen : payload.length ≤ 67) (h : rs.map Rcv.byte = encodeForUart (op :: payload)) :
    ∃ n rx ram m, m.op = op ∧ m.len = payload.length ∧ m.received = payload ∧
      rx.i = 0 ∧ rx.escaped = false ∧
      deviceFeed L d rs = ((handleFrame L d.nvm rx ram m).1,
        List.replicate n ⟨none, []⟩ ++ [(handleFrame L d.nvm rx ram m).2]) := by
  rw [encodeForUart_eq] at h
  obtain ⟨n, x, hx, hfeed⟩ := deviceFeed_encode (L := L) hrun hesc h
  obtain ⟨hi, -, h0⟩ := pushes_started (r := d.rx) (op :: payload)
  have hi' : (d.rx.started.pushes (op :: payload)).i = payload.length + 2 := by
    rw [hi, List.length_cons]
    omega
  have hidle : (d.rx.started.pushes (op :: payload)).escaped = false :=
    (Rx.pushes_inv (r := d.rx.started) (show 1 < sizeofMsg by decide) rfl).2
  have hstop : rxByte (d.rx.started.pushes (op :: payload)) x.byte =
      ((d.rx.started.pushes (op :: payload)).stopped, .frame payload.length) := by
    rw [hx, rxByte_stop hidle (by omega) (h0 (by simp only [List.length_cons]; omega)), hi',
      if_pos (by omega), Nat.add_sub_cancel]
  obtain ⟨hop, hmlen, hrec⟩ := call_started op d.rx x.ram hlen
  refine ⟨n, (d.rx.started.pushes (op :: payload)).stopped, x.ram, _, hop, hmlen, hrec, rfl, rfl,
    ?_⟩
  have hbyte : fwReceiveByte L { d with rx := d.rx.started.pushes (op :: payload) } x =
      handleFrame L d.nvm (d.rx.started.pushes (op :: payload)).stopped x.ram
        ((d.rx.started.pushes (op :: payload)).stopped.call x.ram payload.length) := by
    rw [fwReceiveByte, if_neg (by simp [hrun]), hstop]
  rw [hfeed, hbyte]

/-- A frame as the host means it. -/
structure Command where
  op : UInt8
  payload : List UInt8

def Command.encode (c : Command) : List UInt8 := encodeForUart (c.op :: c.payload)

/-- The commands of the calls a run makes. -/
def calls (t : List Reaction) : List Command :=
  t.filterMap fun x => x.handled.map fun h => ⟨h.1.op, h.1.received⟩

theorem calls_append {t u : List Reaction} : calls (t ++ u) = calls t ++ calls u :=
  List.filterMap_append

theorem deviceFeed_stopped (rs : List Rcv) (h : d.running = false) :
    (deviceFeed L d rs).1 = d ∧ calls (deviceFeed L d rs).2 = [] := by
  induction rs with
  | nil => exact ⟨rfl, rfl⟩
  | cons x rs ih =>
    have hx : fwReceiveByte L d x = (d, ⟨none, []⟩) := if_pos h
    simp only [deviceFeed, hx]
    exact ih

/-- The calls an encoded frame makes, and the receiver it leaves. -/
theorem calls_frame (hrun : d.running = true) (hesc : d.rx.escaped = false) {c : Command}
    (hlen : c.payload.length ≤ 67) (h : rs.map Rcv.byte = c.encode) :
    calls (deviceFeed L d rs).2 = [c] ∧ (deviceFeed L d rs).1.rx.i = 0 ∧
      (deviceFeed L d rs).1.rx.escaped = false := by
  obtain ⟨n, rx, ram, m, hop, -, hrec, hi, hesc', hfeed⟩ :=
    deviceFeed_frame (L := L) hrun hesc hlen h
  rw [hfeed]
  refine ⟨?_, by rw [handleFrame_rx, hi], by rw [handleFrame_rx, hesc']⟩
  have hquiet : calls (List.replicate n ⟨none, []⟩) = [] := by simp [calls]
  rw [calls_append, hquiet, List.nil_append]
  simp [calls, handleFrame_handled, hop, hrec]

/-- **Decoding undoes encoding** from every receiver state without a pending escape. One encoded
frame makes no call before its last byte and exactly its own call on that one, and leaves index 0
and no pending escape; so the frames of a sequence are delivered in order, none lost or doubled, up
to the one that ends the session. -/
theorem encoded_delivered (L : Layout) (d : Device) (hrun : d.running = true)
    (hesc : d.rx.escaped = false) :
    (∀ (op : UInt8) (payload : List UInt8) (rs : List Rcv), payload.length ≤ 67 →
      rs.map Rcv.byte = encodeForUart (op :: payload) →
      (∃ n m status, (deviceFeed L d rs).2.map Reaction.handled =
          List.replicate n none ++ [some (m, status)] ∧
        m.op = op ∧ m.len = payload.length ∧ m.received = payload) ∧
      ((deviceFeed L d rs).1.running = true →
        (deviceFeed L d rs).1.rx.i = 0 ∧ (deviceFeed L d rs).1.rx.escaped = false)) ∧
    ∀ (cs : List Command) (rs : List Rcv), (∀ c ∈ cs, c.payload.length ≤ 67) →
      rs.map Rcv.byte = cs.flatMap Command.encode →
      calls (deviceFeed L d rs).2 <+: cs ∧
      ((deviceFeed L d rs).1.running = true → calls (deviceFeed L d rs).2 = cs) := by
  refine ⟨fun op payload rs hlen h => ?_, fun cs => ?_⟩
  · obtain ⟨n, rx, ram, m, hop, hmlen, hrec, hi, hesc', hfeed⟩ :=
      deviceFeed_frame (L := L) hrun hesc hlen h
    rw [hfeed]
    refine ⟨⟨n, m, (messageHandle L m.op m.data m.len d.nvm).1, ?_, hop, hmlen, hrec⟩, fun _ => ?_⟩
    · simp [handleFrame_handled]
    · rw [handleFrame_rx]
      exact ⟨hi, hesc'⟩
  induction cs generalizing d with
  | nil =>
    intro rs _ h
    rw [List.map_eq_nil_iff.mp h]
    exact ⟨List.nil_prefix, fun _ => rfl⟩
  | cons c cs ih =>
    intro rs hlen h
    rw [List.flatMap_cons] at h
    obtain ⟨first, rest, rfl, hfirst, hrest⟩ := List.map_eq_append_iff.mp h
    obtain ⟨hcall, -, hesc'⟩ := calls_frame (L := L) hrun hesc (hlen c List.mem_cons_self) hfirst
    rw [deviceFeed_append, calls_append, hcall]
    cases hrun' : (deviceFeed L d first).1.running with
    | true =>
      obtain ⟨hpre, heq⟩ := ih _ hrun' hesc' rest
        (fun c' hc' => hlen c' (List.mem_cons_of_mem _ hc')) hrest
      exact ⟨List.cons_prefix_cons.mpr ⟨rfl, hpre⟩, fun hr => by rw [heq hr]; rfl⟩
    | false =>
      obtain ⟨hstate, hnone⟩ := deviceFeed_stopped (L := L) rest hrun'
      rw [hnone, hstate, hrun']
      exact ⟨⟨cs, rfl⟩, nofun⟩

/-- The device idle over the flash `f`. -/
def idleDevice (f : Nat → UInt8) : Device where
  nvm := .powerUp f
  rx := { msg := fun _ => 0, i := 0, escaped := false }
  running := true

/-- Bytes received while RAM holds zeros past the arrays. -/
def received (bs : List UInt8) : List Rcv := bs.map fun byte => ⟨byte, fun _ => 0, fun _ => 0⟩

@[simp] theorem received_byte {bs : List UInt8} : (received bs).map Rcv.byte = bs := by
  simp [received, Function.comp_def]

theorem received_append {bs cs : List UInt8} : received (bs ++ cs) = received bs ++ received cs :=
  List.map_append

theorem escaped_size_delivered :
    calls (deviceFeed pic18f25k22 (idleDevice vectorFlash)
      (received (encodeForUart [hostMsgProgramSize, hostMsgStart, hostMsgEnd, hostMsgEsc]))).2 <+:
        [⟨hostMsgProgramSize, [hostMsgStart, hostMsgEnd, hostMsgEsc]⟩] :=
  ((encoded_delivered pic18f25k22 (idleDevice vectorFlash) rfl rfl).2
    [⟨hostMsgProgramSize, [hostMsgStart, hostMsgEnd, hostMsgEsc]⟩] _ (by decide) rfl).1

/-! ## Soundness -/

/-- An escaped start mark arrives at index 0. -/
def EscapedStart (r : Rx) (b : UInt8) : Prop :=
  r.escaped = true ∧ r.i = 0 ∧ b = hostMsgStart

/-- The receiver takes `b` for the beginning of a command: slot 0 holds the start mark and slot 1 is
next. -/
def Begins (r : Rx) (b : UInt8) : Prop :=
  (rxByte r b).1.i = 1 ∧ (rxByte r b).1.msg 0 = hostMsgStart

variable {p : List UInt8} {r : Rx} {b : UInt8}

/-- What the receiver knows of the stream `p` it has read: a buffer that begins with the start mark
holds all that followed the last unescaped one. -/
structure RxInv (p : List UInt8) (r : Rx) : Prop where
  escaped : r.escaped = pending uartMarks false p
  lt : r.i < sizeofMsg
  content : 0 < r.i → r.msg 0 = hostMsgStart →
    ∃ pre mid, tokens uartMarks false p = pre ++ .raw hostMsgStart :: mid ∧
      (∀ t ∈ mid, t ≠ .raw hostMsgStart ∧ t ≠ .raw hostMsgEnd) ∧
      mid.map Token.sym = Buf.toList (fun k => r.msg (1 + k)) (r.i - 1)

/-- A pushed byte, with the token the stream gains. -/
theorem RxInv.push (H : RxInv p r) {t : Token UInt8} (hsym : t.sym = b)
    (htok : tokens uartMarks false (p ++ [b]) = tokens uartMarks false p ++ [t])
    (hpend : pending uartMarks false (p ++ [b]) = false)
    (h0 : r.i = 0 → b ≠ hostMsgStart)
    (ht : 0 < r.i → r.msg 0 = hostMsgStart → t ≠ .raw hostMsgStart ∧ t ≠ .raw hostMsgEnd) :
    RxInv (p ++ [b]) (r.push b) where
  escaped := by rw [hpend, Rx.escaped_push]
  lt := Rx.push_lt H.lt
  content hi hmsg := by
    by_cases hr : r.i = 0
    · refine absurd ?_ (h0 hr)
      simpa [Rx.push, hr] using hmsg
    have hmsg' : r.msg 0 = hostMsgStart := by
      simpa only [Rx.push, Function.update_of_ne (Ne.symm hr)] using hmsg
    obtain ⟨pre, mid, htoks, hraw, hmid⟩ := H.content (by omega) hmsg'
    have hnext : (r.push b).i = r.i + 1 := by
      simp only [Rx.push] at hi ⊢
      split at hi
      · omega
      · next hne => exact if_neg hne
    refine ⟨pre, mid ++ [t], by rw [htok, htoks]; simp, fun u hu => ?_, ?_⟩
    · rcases List.mem_append.mp hu with hu | hu
      · exact hraw u hu
      · rw [List.mem_singleton.mp hu]
        exact ht (by omega) hmsg'
    · rw [List.map_append, hmid, hnext, show r.i + 1 - 1 = (r.i - 1) + 1 by omega, Buf.toList_succ]
      simp only [Rx.push, List.map_cons, List.map_nil, hsym, show 1 + (r.i - 1) = r.i by omega,
        Function.update_self]
      congr 1
      exact Buf.toList_congr fun k hk => by rw [Function.update_of_ne (by omega)]

/-- One byte keeps the invariant, unless it is an escaped start mark at index 0. -/
theorem RxInv.step (H : RxInv p r) (hb : ¬ EscapedStart r b) : RxInv (p ++ [b]) (rxByte r b).1 := by
  by_cases hesc : r.escaped = true
  · have hpend : pending uartMarks false p = true := by rw [← H.escaped, hesc]
    rw [rxByte_lit hesc]
    exact H.push rfl (tokens_lit hpend) (pending_snoc (.inl hpend))
      (fun hi hs => hb ⟨hesc, hi, hs⟩) fun _ _ => ⟨nofun, nofun⟩
  replace hesc : r.escaped = false := by simpa using hesc
  have hpend : pending uartMarks false p = false := by rw [← H.escaped, hesc]
  by_cases h1 : b = hostMsgEsc
  · subst h1
    rw [rxByte_esc hesc]
    exact ⟨(pending_esc hpend).symm, H.lt, fun hi hmsg => by
      rw [show hostMsgEsc = uartMarks.esc from rfl, tokens_esc hpend]
      exact H.content hi hmsg⟩
  have htok := tokens_raw hpend h1
  have hpend' : pending uartMarks false (p ++ [b]) = false := pending_snoc (.inr h1)
  by_cases h2 : b = hostMsgStart
  · subst h2
    rw [rxByte_start hesc]
    exact ⟨hpend'.symm, (by decide : 1 < sizeofMsg), fun _ _ => ⟨_, [], htok, nofun, rfl⟩⟩
  by_cases h3 : b = hostMsgEnd ∧ 0 < r.i ∧ r.msg 0 = hostMsgStart
  · obtain ⟨rfl, hi, hmsg⟩ := h3
    rw [rxByte_stop hesc hi hmsg]
    exact ⟨hpend'.symm, (by decide : 0 < sizeofMsg), fun h => absurd h (by simp [Rx.stopped])⟩
  · rw [rxByte_plain hesc h1 h2 fun h => by
      by_cases hi : r.i = 0
      · exact .inl hi
      · exact .inr fun hmsg => h3 ⟨h, by omega, hmsg⟩]
    refine H.push rfl htok hpend' (fun _ => h2) fun hi hmsg => ⟨?_, ?_⟩
    · exact fun h => h2 (Token.raw.inj h)
    · exact fun h => h3 ⟨Token.raw.inj h, hi, hmsg⟩

/-- The only event with a call is the end mark of a frame that has an operation byte. -/
theorem rxByte_frame {len : Nat} (h : (rxByte r b).2 = .frame len) :
    r.escaped = false ∧ b = hostMsgEnd ∧ 0 < r.i ∧ r.msg 0 = hostMsgStart ∧ r.i = len + 2 := by
  by_cases hesc : r.escaped = true
  · rw [rxByte_lit hesc] at h
    exact absurd h nofun
  replace hesc : r.escaped = false := by simpa using hesc
  by_cases h1 : b = hostMsgEsc
  · rw [h1, rxByte_esc hesc] at h
    exact absurd h nofun
  by_cases h2 : b = hostMsgStart
  · rw [h2, rxByte_start hesc] at h
    exact absurd h nofun
  by_cases h3 : b = hostMsgEnd ∧ 0 < r.i ∧ r.msg 0 = hostMsgStart
  · obtain ⟨rfl, hi, hmsg⟩ := h3
    rw [rxByte_stop hesc hi hmsg] at h
    split at h
    · next hgt =>
      have := RxEvent.frame.inj h
      exact ⟨hesc, rfl, hi, hmsg, by omega⟩
    · exact absurd h nofun
  · have hplain : rxByte r b = (r.push b, .more) := rxByte_plain hesc h1 h2 fun hb => by
      by_cases hi : r.i = 0
      · exact .inl hi
      · exact .inr fun hmsg => h3 ⟨hb, by omega, hmsg⟩
    rw [hplain] at h
    exact absurd h nofun

/-- A call's operation byte and payload are the frame the stream has just completed. -/
theorem RxInv.framed (H : RxInv p r) {ram : Ram} {len : Nat} (h : (rxByte r b).2 = .frame len) :
    let m := (rxByte r b).1.call ram len
    Framed uartMarks (p ++ [b]) (m.op :: m.received) := by
  obtain ⟨hesc, rfl, hi, hmsg, hlen⟩ := rxByte_frame h
  have hpend : pending uartMarks false p = false := by rw [← H.escaped, hesc]
  obtain ⟨pre, mid, htoks, hraw, hmid⟩ := H.content hi hmsg
  have hlt : r.i < 70 := H.lt
  rw [rxByte_stop hesc hi hmsg]
  refine ⟨pre, mid, ?_, hraw, ?_⟩
  · rw [tokens_raw hpend (by decide), htoks]
    simp [uartMarks]
  · rw [hmid, show r.i - 1 = 1 + len by omega, Buf.toList_add]
    have hkeep : ∀ j < r.i, r.stopped.msg j = r.msg j := fun j hj =>
      Function.update_of_ne (by omega) ..
    change r.stopped.msg 1 :: _ = r.msg 1 :: _
    rw [hkeep 1 (by omega)]
    refine congrArg _ (Buf.toList_congr fun k hk => ?_)
    have hk' : k < len := hk
    simp only [Rx.call, sizeofMsg, if_pos (show 2 + k < 70 by omega), hkeep (2 + k) (by omega)]
    congr 1
    omega

/-! ### Runs -/

theorem fwReceiveByte_handled {d : Device} {x : Rcv} {m : Msg} {status : FlashingStatus}
    (h : (fwReceiveByte L d x).2.handled = some (m, status)) :
    ∃ len, (rxByte d.rx x.byte).2 = .frame len ∧ m = (rxByte d.rx x.byte).1.call x.ram len := by
  unfold fwReceiveByte at h
  split at h
  · exact absurd h nofun
  · split at h
    · exact absurd h nofun
    · exact absurd h nofun
    · next len heq =>
      rw [handleFrame_handled, Option.some.injEq, Prod.mk.injEq] at h
      exact ⟨len, by rw [heq], by rw [heq, h.1]⟩

/-- While it runs, the device's receiver has seen every byte. -/
theorem fwReceiveByte_rx {d : Device} {x : Rcv} (h : (fwReceiveByte L d x).1.running = true) :
    d.running = true ∧ (fwReceiveByte L d x).1.rx = (rxByte d.rx x.byte).1 := by
  unfold fwReceiveByte at h ⊢
  split
  · next hr =>
    rw [if_pos hr, hr] at h
    exact absurd h nofun
  · next hr =>
    refine ⟨by simpa using hr, ?_⟩
    rw [if_neg hr] at h
    split <;> simp_all

theorem deviceFeed_snoc {d : Device} {b : Rcv} :
    (deviceFeed L d (rs ++ [b])).1 = (fwReceiveByte L (deviceFeed L d rs).1 b).1 := by
  rw [deviceFeed_append]
  rfl

/-- A byte after a pending escape begins a command only as an escaped start mark at index 0. -/
theorem begins_iff (hesc : r.escaped = true) : Begins r b ↔ EscapedStart r b := by
  rw [Begins, rxByte_lit hesc]
  constructor
  · rintro ⟨hi, hmsg⟩
    have h0 : r.i = 0 := by
      simp only [Rx.push, sizeofMsg] at hi
      split at hi <;> omega
    refine ⟨hesc, h0, ?_⟩
    simpa [Rx.push, h0] using hmsg
  · rintro ⟨-, hi, hb⟩
    simp [Rx.push, hi, hb, sizeofMsg]

/-- No byte of the run that `fw_receive` reads is an escaped start mark at index 0. -/
def NoEscapedStart (L : Layout) (d : Device) (rs : List Rcv) : Prop :=
  ∀ p b, p ++ [b] <+: rs → (deviceFeed L d p).1.running = true →
    ¬ EscapedStart (deviceFeed L d p).1.rx b.byte

theorem NoEscapedStart.mono {d : Device} {ps : List Rcv} (h : NoEscapedStart L d rs)
    (hp : ps <+: rs) : NoEscapedStart L d ps := fun p b hpb => h p b (hpb.trans hp)

/-- The invariant along a run. -/
theorem rxInv_run {s : Nvm} {msg : Nat → UInt8} (h : NoEscapedStart L (sessionStart L s msg) rs)
    (hrun : (deviceFeed L (sessionStart L s msg) rs).1.running = true) :
    RxInv (rs.map Rcv.byte) (deviceFeed L (sessionStart L s msg) rs).1.rx := by
  induction rs using List.reverseRecOn with
  | nil => exact ⟨rfl, (by decide : 0 < sizeofMsg), fun hi => absurd hi (Nat.lt_irrefl 0)⟩
  | append_singleton p b ih =>
    rw [deviceFeed_snoc] at hrun ⊢
    obtain ⟨hrun', hrx⟩ := fwReceiveByte_rx hrun
    rw [hrx, List.map_append]
    exact (ih (h.mono (List.prefix_append p [b])) hrun').step (h p b List.prefix_rfl hrun')

/-- Along the run every call's operation byte and payload are the frame the stream has just
completed, and no escaped byte is taken for the beginning of a command. -/
def FramingSound (L : Layout) (d : Device) (rs : List Rcv) : Prop :=
  ∀ p b, p ++ [b] <+: rs → (deviceFeed L d p).1.running = true →
    (∀ m status, (fwReceiveByte L (deviceFeed L d p).1 b).2.handled = some (m, status) →
      Framed uartMarks ((p ++ [b]).map Rcv.byte) (m.op :: m.received)) ∧
    (pending uartMarks false (p.map Rcv.byte) = true → ¬ Begins (deviceFeed L d p).1.rx b.byte)

/-- What the tool encodes is such a frame, after any stream that does not end in an escape. -/
theorem encodeForUart_framed {content : List UInt8} (h : pending uartMarks false p = false) :
    Framed uartMarks (p ++ encodeForUart content) content := by
  rw [encodeForUart_eq]
  exact framed_encode h

/-- **Framing is sound exactly as long as** no escaped start mark arrives at index 0. -/
theorem framing_sound_iff (L : Layout) (s : Nvm) (msg : Nat → UInt8) (rs : List Rcv) :
    FramingSound L (sessionStart L s msg) rs ↔ NoEscapedStart L (sessionStart L s msg) rs := by
  constructor
  · intro h
    -- up to the first escaped start mark the invariant ties the escape flag to the stream
    induction rs using List.reverseRecOn with
    | nil => exact fun p b hp => absurd (List.prefix_nil.mp hp) (by simp)
    | append_singleton rs x ih =>
      have hinit : NoEscapedStart L (sessionStart L s msg) rs :=
        ih fun p b hp => h p b (hp.trans (List.prefix_append rs [x]))
      intro p b hp hrun hstart
      rcases List.prefix_concat_iff.mp hp with heq | hp'
      · obtain ⟨rfl, hbx⟩ := List.append_inj' heq rfl
        obtain rfl : b = x := by simpa using hbx
        refine (h p b hp hrun).2 ?_ ((begins_iff hstart.1).mpr hstart)
        rw [← (rxInv_run hinit hrun).escaped, hstart.1]
      · exact hinit p b hp' hrun hstart
  · intro h p b hp hrun
    have H := rxInv_run (h.mono ((List.prefix_append p [b]).trans hp)) hrun
    refine ⟨fun m status hm => ?_, fun hpend hbegins => ?_⟩
    · obtain ⟨len, hframe, rfl⟩ := fwReceiveByte_handled hm
      rw [List.map_append]
      exact H.framed hframe
    · exact h p b hp hrun ((begins_iff (H.escaped.trans hpend)).mp hbegins)

/-- An escaped start mark after the start of a session, and the frame the receiver then sees. -/
theorem escaped_start_unsound : ¬ FramingSound pic18f25k22
    (sessionStart pic18f25k22 (.powerUp vectorFlash) fun _ => 0)
    (received [hostMsgEsc, hostMsgStart, hostMsgFlashStop, hostMsgEnd]) := by
  intro h
  obtain ⟨pre, mid, htok, -⟩ := (h (received [hostMsgEsc, hostMsgStart, hostMsgFlashStop])
    ⟨hostMsgEnd, fun _ => 0, fun _ => 0⟩ List.prefix_rfl rfl).1 _ _ rfl
  have hmem : Token.raw hostMsgStart ∈ tokens uartMarks false
      [hostMsgEsc, hostMsgStart, hostMsgFlashStop, hostMsgEnd] := by
    change tokens uartMarks false
      [hostMsgEsc, hostMsgStart, hostMsgFlashStop, hostMsgEnd] = _ at htok
    rw [htok]
    exact List.mem_append_right pre List.mem_cons_self
  have htoks : tokens uartMarks false [hostMsgEsc, hostMsgStart, hostMsgFlashStop, hostMsgEnd] =
      [.lit hostMsgStart, .raw hostMsgFlashStop, .raw hostMsgEnd] := rfl
  rw [htoks] at hmem
  simp only [List.mem_cons, Token.raw.injEq, reduceCtorEq, List.not_mem_nil] at hmem
  exact absurd hmem (by decide)

end Pic18Boot
