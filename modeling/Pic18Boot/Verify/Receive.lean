import Pic18Boot.Model.Receive
import Pic18Boot.Model.Host
import Pic18Boot.Verify.Message

/-! # The receive loop, byte by byte

One equation for each way `rxByte` can go. A content byte, escaped or not, is pushed on the buffer
without further effect (`rxFeed_escape`), so a frame is its start mark, the pushes of its content
and its end mark, whatever the state before it. -/

namespace Pic18Boot
open Framing

/-- The receiver over a stream of bytes, with the event of each. -/
def rxFeed : Rx → List UInt8 → Rx × List RxEvent
  | r, [] => (r, [])
  | r, b :: bs =>
    let x := rxByte r b
    let rest := rxFeed x.1 bs
    (rest.1, x.2 :: rest.2)

/-- Store a byte and advance the index, which wraps at the end of the buffer. -/
def Rx.push (r : Rx) (b : UInt8) : Rx where
  msg := Function.update r.msg r.i b
  i := if r.i + 1 = sizeofMsg then 0 else r.i + 1
  escaped := false

/-- The state after an unescaped start mark. -/
def Rx.started (r : Rx) : Rx where
  msg := Function.update (Function.update r.msg r.i hostMsgStart) 0 hostMsgStart
  i := 1
  escaped := false

/-- The state after the end mark of a frame. -/
def Rx.stopped (r : Rx) : Rx where
  msg := Function.update r.msg r.i hostMsgEnd
  i := 0
  escaped := false

variable {r : Rx} {b : UInt8} {bs cs : List UInt8}

@[simp] theorem rxFeed_nil : rxFeed r [] = (r, []) := rfl

theorem rxFeed_append : rxFeed r (bs ++ cs) =
    ((rxFeed (rxFeed r bs).1 cs).1, (rxFeed r bs).2 ++ (rxFeed (rxFeed r bs).1 cs).2) := by
  induction bs generalizing r with
  | nil => rfl
  | cons b bs ih => simp only [List.cons_append, rxFeed, ih]

/-! ## One byte -/

theorem rxByte_esc (h : r.escaped = false) :
    rxByte r hostMsgEsc = ({ r with escaped := true }, .more) :=
  if_pos ⟨rfl, h⟩

theorem rxByte_lit (h : r.escaped = true) : rxByte r b = (r.push b, .more) := by
  rw [rxByte, if_neg (by simp [h])]
  simp only [h, if_true]
  rfl

theorem rxByte_start (h : r.escaped = false) : rxByte r hostMsgStart = (r.started, .more) := by
  rw [rxByte, if_neg fun h' => absurd h'.1 (by decide)]
  simp only [h, Bool.false_eq_true, if_false]
  by_cases hi : r.i > 0
  · rw [if_pos ⟨trivial, hi⟩]
    rfl
  · have h0 : r.i = 0 := by omega
    rw [if_neg fun h' => hi h'.2, if_neg, h0, Rx.started, h0, Function.update_idem]
    · rfl
    · rw [Function.update_self]
      exact fun h' => absurd h'.1 (by decide)

theorem rxByte_plain (h : r.escaped = false) (hesc : b ≠ hostMsgEsc) (hstart : b ≠ hostMsgStart)
    (hstop : b = hostMsgEnd → r.i = 0 ∨ r.msg 0 ≠ hostMsgStart) :
    rxByte r b = (r.push b, .more) := by
  rw [rxByte, if_neg fun h' => hesc h'.1]
  simp only [h, Bool.false_eq_true, if_false]
  rw [if_neg fun h' => hstart h'.1, if_neg]
  · rfl
  · rw [Function.update_self]
    rintro ⟨rfl, hmsg⟩
    by_cases hi : r.i = 0
    · rw [hi, Function.update_self] at hmsg
      exact absurd hmsg (by decide)
    · rw [Function.update_of_ne (Ne.symm hi)] at hmsg
      exact (hstop rfl).elim hi fun hne => hne hmsg

theorem rxByte_stop (h : r.escaped = false) (hi : 0 < r.i) (hmsg : r.msg 0 = hostMsgStart) :
    rxByte r hostMsgEnd = (r.stopped, if r.i > 1 then .frame (r.i - 2) else .empty) := by
  rw [rxByte, if_neg fun h' => absurd h'.1 (by decide)]
  simp only [h, Bool.false_eq_true, if_false]
  rw [if_neg fun h' => absurd h'.1 (by decide), if_pos]
  · rfl
  · rw [Function.update_self, Function.update_of_ne (by omega)]
    exact ⟨rfl, hmsg⟩

/-! ## Content bytes -/

/-- The pushes of a list of bytes. -/
def Rx.pushes (r : Rx) (content : List UInt8) : Rx := content.foldl Rx.push r

@[simp] theorem Rx.escaped_push : (r.push b).escaped = false := rfl

theorem Rx.push_lt (h : r.i < sizeofMsg) : (r.push b).i < sizeofMsg := by
  simp only [Rx.push]
  split <;> omega

theorem Rx.pushes_inv {content : List UInt8} (h : r.i < sizeofMsg) (hesc : r.escaped = false) :
    (r.pushes content).i < sizeofMsg ∧ (r.pushes content).escaped = false := by
  induction content generalizing r with
  | nil => exact ⟨h, hesc⟩
  | cons c content ih => exact ih (Rx.push_lt h) rfl

/-- An escaped content byte is pushed; so is one that needs no escape. -/
theorem rxFeed_escape {c : UInt8} (h : r.escaped = false) :
    ∃ n, rxFeed r (escape uartMarks c) = (r.push c, List.replicate n .more) := by
  unfold escape
  split
  · refine ⟨2, ?_⟩
    have hlit : rxByte { r with escaped := true } c = (r.push c, .more) := rxByte_lit rfl
    simp only [rxFeed, uartMarks, rxByte_esc h, hlit]
    rfl
  · next hc =>
    refine ⟨1, ?_⟩
    have hplain : rxByte r c = (r.push c, .more) :=
      rxByte_plain h (fun h' => hc (.inr (.inr h'))) (fun h' => hc (.inl h'))
        fun h' => absurd (Or.inr (Or.inl h')) hc
    simp only [rxFeed, hplain]
    rfl

theorem rxFeed_content (content : List UInt8) (h : r.escaped = false) :
    ∃ n, rxFeed r (content.flatMap (escape uartMarks)) =
      (r.pushes content, List.replicate n .more) := by
  induction content generalizing r with
  | nil => exact ⟨0, rfl⟩
  | cons c content ih =>
    obtain ⟨n, hn⟩ := rxFeed_escape (c := c) h
    obtain ⟨m, hm⟩ := ih (r := r.push c) rfl
    refine ⟨n + m, ?_⟩
    rw [List.flatMap_cons, rxFeed_append, hn]
    simp only [hm, List.replicate_append_replicate]
    rfl

/-- Where the pushes of a frame's content go: content byte `k` to slot `(k + 1) % 70`, where it
stays for the next 69 pushes; the start mark stays in slot 0 until the buffer has wrapped. -/
theorem pushes_started (content : List UInt8) :
    (r.started.pushes content).i = (content.length + 1) % 70 ∧
      (∀ k c, content[k]? = some c → content.length < k + 71 →
        (r.started.pushes content).msg ((k + 1) % 70) = c) ∧
      (content.length < 70 → (r.started.pushes content).msg 0 = hostMsgStart) := by
  induction content using List.reverseRecOn with
  | nil => exact ⟨rfl, nofun, fun _ => by simp [Rx.pushes, Rx.started]⟩
  | append_singleton content c ih =>
    obtain ⟨hi, hmsg, h0⟩ := ih
    have hpush : r.started.pushes (content ++ [c]) = (r.started.pushes content).push c := by
      simp [Rx.pushes]
    rw [hpush]
    simp only [Rx.push, sizeofMsg, hi, List.length_append, List.length_singleton]
    refine ⟨?_, fun k d hk hlt => ?_, fun hlt => ?_⟩
    · split <;> omega
    · by_cases hkn : k = content.length
      · subst hkn
        rw [Function.update_self]
        simpa using hk
      · have hk' : k < content.length := by
          have := (List.getElem?_eq_some_iff.mp hk).1
          simp only [List.length_append, List.length_singleton] at this
          omega
        rw [Function.update_of_ne (by omega)]
        rw [List.getElem?_append_left hk'] at hk
        exact hmsg k d hk (by omega)
    · rw [Function.update_of_ne (by omega)]
      exact h0 (by omega)

/-! ## The device -/

variable {L : Layout} {d : Device} {rs : List Rcv}

section Frame
variable {nvm : Nvm} {rx : Rx} {ram : Ram} {m : Msg}

theorem handleFrame_handled :
    (handleFrame L nvm rx ram m).2.handled =
      some (m, (messageHandle L m.op m.data m.len nvm).1) := by
  unfold handleFrame
  dsimp only
  split <;> rfl

theorem handleFrame_nvm :
    (handleFrame L nvm rx ram m).1.nvm = (messageHandle L m.op m.data m.len nvm).2 := by
  unfold handleFrame
  dsimp only
  split <;> rfl

/-- What is sent for each outcome: `mcu_errs` is indexed one too high. -/
theorem handleFrame_sent :
    (handleFrame L nvm rx ram m).2.sent =
      match (messageHandle L m.op m.data m.len nvm).1 with
      | .noErr => [mcuMsgOpSuccess]
      | .flashingDone => [mcuErrInvalidPayload]
      | .errInvalidPayload => [mcuErrDeniedAddr]
      | .errDeniedAddr => [ram.afterErrs 0] := by
  unfold handleFrame
  generalize messageHandle L m.op m.data m.len nvm = r
  obtain ⟨status, nvm'⟩ := r
  cases status <;> rfl

theorem handleFrame_one : ∃ reply, (handleFrame L nvm rx ram m).2.sent = [reply] := by
  rw [handleFrame_sent]
  split <;> exact ⟨_, rfl⟩

@[simp] theorem handleFrame_rx :
    (handleFrame L nvm rx ram m).1.rx = rx := by
  unfold handleFrame
  dsimp only
  split <;> rfl

theorem handleFrame_running :
    (handleFrame L nvm rx ram m).1.running = true ↔ Accepted L m.op m.data m.len := by
  rw [← messageHandle_noErr (s := nvm), handleFrame]
  dsimp only
  split
  · next h => exact ⟨fun h' => absurd h' nofun, fun h' => by simp [h'] at h⟩
  · next h => exact ⟨fun _ => by simpa using (not_or.mp h).2, fun _ => rfl⟩

end Frame

theorem sent_quiet {n : Nat} :
    (List.replicate n (⟨none, []⟩ : Reaction)).flatMap Reaction.sent = [] := by
  simp [List.flatMap_eq_nil_iff, List.mem_replicate]

theorem fwReceiveByte_more (hrun : d.running = true) {x : Rcv} {r' : Rx}
    (h : rxByte d.rx x.byte = (r', .more)) :
    fwReceiveByte L d x = ({ d with rx := r' }, ⟨none, []⟩) := by
  rw [fwReceiveByte, if_neg (by simp [hrun]), h]

/-- While the receiver only keeps bytes, the device does nothing else. -/
theorem deviceFeed_more (hrun : d.running = true) {r' : Rx} {n : Nat}
    (h : rxFeed d.rx (rs.map Rcv.byte) = (r', List.replicate n .more)) :
    deviceFeed L d rs = ({ d with rx := r' }, List.replicate n ⟨none, []⟩) := by
  induction rs generalizing d n with
  | nil =>
    obtain ⟨rfl, hn⟩ := Prod.mk.inj h
    cases n with
    | zero => rfl
    | succ n => exact absurd hn nofun
  | cons x rs ih =>
    cases n with
    | zero => exact absurd (Prod.mk.inj h).2 nofun
    | succ n =>
      obtain ⟨hstate, hevents⟩ := Prod.mk.inj h
      obtain ⟨hmore, hrest⟩ := List.cons.inj hevents
      have hbyte : rxByte d.rx x.byte = ((rxByte d.rx x.byte).1, .more) := Prod.ext rfl hmore
      have htail := ih (d := { d with rx := (rxByte d.rx x.byte).1 }) hrun (Prod.ext hstate hrest)
      simp only [deviceFeed, fwReceiveByte_more hrun hbyte, htail]
      rfl

/-- **An encoded frame, from any receiver state without a pending escape**: nothing happens before
the end mark, which finds the content pushed on a started buffer. -/
theorem deviceFeed_encode (hrun : d.running = true) (hesc : d.rx.escaped = false)
    {content : List UInt8} (h : rs.map Rcv.byte = encode uartMarks content) :
    ∃ n x, x.byte = hostMsgEnd ∧
      deviceFeed L d rs =
        ((fwReceiveByte L { d with rx := d.rx.started.pushes content } x).1,
          List.replicate n ⟨none, []⟩ ++
            [(fwReceiveByte L { d with rx := d.rx.started.pushes content } x).2]) := by
  have hsplit : encode uartMarks content =
      (hostMsgStart :: content.flatMap (escape uartMarks)) ++ [hostMsgEnd] := rfl
  rw [hsplit] at h
  obtain ⟨init, last, rfl, hinit, hlast⟩ := List.map_eq_append_iff.mp h
  obtain ⟨x, rfl, hx⟩ := List.map_eq_singleton_iff.mp hlast
  obtain ⟨n, hn⟩ := rxFeed_content content (r := d.rx.started) rfl
  have hfeed : rxFeed d.rx (init.map Rcv.byte) =
      (d.rx.started.pushes content, List.replicate (n + 1) .more) := by
    rw [hinit, rxFeed, rxByte_start hesc, hn]
    rfl
  refine ⟨n + 1, x, hx, ?_⟩
  rw [deviceFeed_append, deviceFeed_more hrun hfeed]
  rfl

end Pic18Boot
