import Pic18Boot.Verify.Framing

/-! # The receive buffer

What a pass of `fw_receive` does to `msg` and `i`, as a list of operations (`rxOps`), from which the
slots written since the last reset of `i` are read off (`fresh`). The slots below `i` are always
among them, so `message_handle` is given bytes of its own frame only (`receive_buffer`). -/

namespace Pic18Boot

/-- What a pass does to `msg` and `i`, and its call. -/
inductive RxOp
  /-- `msg[slot] = byte` -/
  | store (slot : Nat) (byte : UInt8)
  /-- `i++` -/
  | next
  /-- `i = n` -/
  | reset (n : Nat)
  /-- `message_handle(msg[1], msg + 2, i - 2)` -/
  | call

/-- The operations of one pass of the loop of `fw_receive`, in the order of the source. -/
def rxOps (r : Rx) (byte : UInt8) : List RxOp :=
  if byte = hostMsgEsc ∧ r.escaped = false then []
  else
    let msg := Function.update r.msg r.i byte
    let advance := if r.i + 1 = sizeofMsg then [RxOp.next, .reset 0] else [.next]
    .store r.i byte ::
      if r.escaped then advance
      else if byte = hostMsgStart ∧ r.i > 0 then [.reset 1, .store 0 hostMsgStart]
      else if msg r.i = hostMsgEnd ∧ msg 0 = hostMsgStart then
        if r.i > 1 then [.call, .reset 0] else [.reset 0]
      else advance

/-- The operations of the passes over a stream. -/
def rxTrace : Rx → List UInt8 → List RxOp
  | _, [] => []
  | r, b :: bs => rxOps r b ++ rxTrace (rxByte r b).1 bs

def RxOp.apply (r : Rx) : RxOp → Rx
  | .store slot byte => { r with msg := Function.update r.msg slot byte }
  | .next => { r with i := r.i + 1 }
  | .reset n => { r with i := n }
  | .call => r

/-- A reset makes every slot stale. -/
def RxOp.track (f : Nat → Option UInt8) : RxOp → Nat → Option UInt8
  | .store slot byte => Function.update f slot (some byte)
  | .reset _ => fun _ => none
  | .next | .call => f

/-- The byte last stored in a slot since the last reset; before the first store there is none. -/
def fresh (ops : List RxOp) : Nat → Option UInt8 := ops.foldl RxOp.track fun _ => none

variable {L : Layout} {d : Device} {r : Rx} {b : UInt8} {bs : List UInt8} {rs : List Rcv}
  {ops : List RxOp} {f : Nat → Option UInt8} {n len : Nat}

/-- The operations are what the pass does. -/
theorem rxByte_ops (r : Rx) (b : UInt8) :
    (rxOps r b).foldl RxOp.apply r = { (rxByte r b).1 with escaped := r.escaped } := by
  unfold rxOps rxByte
  split
  · rfl
  · dsimp only
    split
    · split <;> rfl
    split
    · rfl
    split
    · split <;> rfl
    · split <;> rfl

theorem rxTrace_concat : rxTrace r (bs ++ [b]) = rxTrace r bs ++ rxOps (rxFeed r bs).1 b := by
  induction bs generalizing r with
  | nil => simp [rxTrace, rxFeed]
  | cons c bs ih => simp [rxTrace, rxFeed, ih]

/-- The first `n` slots are fresh. -/
def Filled (f : Nat → Option UInt8) (msg : Nat → UInt8) (n : Nat) : Prop :=
  ∀ k < n, f k = some (msg k)

theorem Filled.store {msg : Nat → UInt8} (H : Filled f msg n) (b : UInt8) :
    Filled (Function.update f n (some b)) (Function.update msg n b) (n + 1) := by
  intro k hk
  by_cases hkn : k = n
  · rw [hkn, Function.update_self, Function.update_self]
  · rw [Function.update_of_ne hkn, Function.update_of_ne hkn]
    exact H k (by omega)

/-- What holds of the buffer whenever `fw_receive` reads a byte. -/
structure BufferInv (f : Nat → Option UInt8) (r : Rx) : Prop where
  lt : r.i < sizeofMsg
  filled : Filled f r.msg r.i

theorem bufferInv_empty (f : Nat → Option UInt8) {msg : Nat → UInt8} {escaped : Bool} :
    BufferInv f ⟨msg, 0, escaped⟩ := ⟨(by decide : 0 < sizeofMsg), nofun⟩

theorem BufferInv.step (H : BufferInv f r) (b : UInt8) :
    BufferInv ((rxOps r b).foldl RxOp.track f) (rxByte r b).1 := by
  suffices hops : BufferInv ((rxOps r b).foldl RxOp.track f) ((rxOps r b).foldl RxOp.apply r) by
    rw [rxByte_ops] at hops
    exact ⟨hops.lt, hops.filled⟩
  have hstore := H.filled.store b
  have hlt := H.lt
  -- `i++` after the store, with the wrap at the end of the buffer
  have hadvance : BufferInv
      ((RxOp.store r.i b :: if r.i + 1 = sizeofMsg then [RxOp.next, .reset 0] else [.next]).foldl
        RxOp.track f)
      ((RxOp.store r.i b :: if r.i + 1 = sizeofMsg then [RxOp.next, .reset 0] else [.next]).foldl
        RxOp.apply r) := by
    split
    · exact bufferInv_empty _
    · next hwrap =>
      refine ⟨?_, hstore⟩
      change r.i + 1 < sizeofMsg
      omega
  unfold rxOps
  split
  · exact H
  · dsimp only
    split
    · exact hadvance
    split
    · -- the start mark in slot 0 is stored after the reset to 1
      refine ⟨(by decide : 1 < sizeofMsg), fun k hk => ?_⟩
      obtain rfl : k = 0 := Nat.lt_one_iff.mp hk
      rfl
    split
    · split
      · exact bufferInv_empty _
      · exact bufferInv_empty _
    · exact hadvance

theorem bufferInv_run (h0 : r.i = 0) (bs : List UInt8) :
    BufferInv (fresh (rxTrace r bs)) (rxFeed r bs).1 := by
  induction bs using List.reverseRecOn with
  | nil =>
    refine ⟨?_, ?_⟩
    · rw [rxFeed_nil, h0]
      decide
    · rw [rxFeed_nil, h0]
      nofun
  | append_singleton bs b ih =>
    have hstep := ih.step b
    rw [rxTrace_concat, fresh, List.foldl_append, rxFeed_append]
    exact hstep

theorem deviceFeed_rx (hrun : (deviceFeed L d rs).1.running = true) :
    (deviceFeed L d rs).1.rx = (rxFeed d.rx (rs.map Rcv.byte)).1 := by
  induction rs using List.reverseRecOn with
  | nil => rfl
  | append_singleton rs b ih =>
    rw [deviceFeed_snoc] at hrun ⊢
    obtain ⟨hrun', hrx⟩ := fwReceiveByte_rx hrun
    rw [hrx, ih hrun', List.map_append, rxFeed_append]
    rfl

theorem rxOps_frame (h : (rxByte r b).2 = .frame len) :
    rxOps r b = [.store r.i b, .call, .reset 0] := by
  obtain ⟨hesc, rfl, hi, hmsg, hlen⟩ := rxByte_frame h
  have h0 : Function.update r.msg r.i hostMsgEnd 0 = hostMsgStart := by
    rw [Function.update_of_ne (by omega), hmsg]
  rw [rxOps, if_neg fun h' => absurd h'.1 (by decide)]
  dsimp only
  rw [hesc, if_neg Bool.false_ne_true, if_neg fun h' => absurd h'.1 (by decide),
    if_pos ⟨Function.update_self .., h0⟩, if_pos (by omega)]

/-- No store is outside the buffer. -/
theorem BufferInv.store_lt (H : BufferInv f r) {slot : Nat} {byte : UInt8}
    (h : .store slot byte ∈ rxOps r b) : slot < sizeofMsg := by
  have hadvance : RxOp.store slot byte ∉
      if r.i + 1 = sizeofMsg then [RxOp.next, .reset 0] else [.next] := by
    split <;> simp
  unfold rxOps at h
  split at h
  · cases h
  rcases List.mem_cons.mp h with h | h
  · cases h
    exact H.lt
  split at h
  · exact absurd h hadvance
  split at h
  · obtain ⟨rfl, -⟩ : slot = 0 ∧ byte = hostMsgStart := by simpa using h
    decide
  split at h
  · split at h
    · simp at h
    · simp at h
  · exact absurd h hadvance

/-- The call gets slots that are fresh once the end mark is stored. -/
theorem BufferInv.call (H : BufferInv f r) {ram : Ram} (h : (rxByte r b).2 = .frame len) :
    let m := (rxByte r b).1.call ram len
    let f := RxOp.track f (.store r.i b)
    2 ≤ r.i ∧ m.len = r.i - 2 ∧ m.len ≤ 67 ∧ f 1 = some m.op ∧
      ∀ k < m.len, f (2 + k) = some (m.data k) := by
  intro m f
  obtain ⟨hesc, rfl, hi, hmsg, hlen⟩ := rxByte_frame h
  have hlt : r.i < 70 := H.lt
  have hfilled : Filled f (rxByte r hostMsgEnd).1.msg (r.i + 1) := by
    rw [rxByte_stop hesc hi hmsg]
    exact H.filled.store hostMsgEnd
  refine ⟨by omega, by rw [hlen]; rfl, ?_, hfilled 1 (by omega), fun k hk => ?_⟩
  · change len ≤ 67
    omega
  · have hk : k < len := hk
    rw [hfilled (2 + k) (by omega)]
    exact congrArg some (if_pos (show 2 + k < 70 by omega)).symm

/-- **The receive buffer**: whatever is received, the index is inside the buffer when a byte is
stored, the slots below it have been stored since it was last reset, and a call of `message_handle`
gets such slots only. -/
theorem receive_buffer (L : Layout) (s : Nvm) (msg : Nat → UInt8) (p : List Rcv) (b : Rcv)
    (hrun : (deviceFeed L (sessionStart L s msg) p).1.running = true) :
    let d := (deviceFeed L (sessionStart L s msg) p).1
    let ops := rxTrace (sessionStart L s msg).rx (p.map Rcv.byte)
    d.rx.i ≤ 69 ∧ (∀ slot byte, .store slot byte ∈ rxOps d.rx b.byte → slot ≤ 69) ∧
      (∀ k < d.rx.i, fresh ops k = some (d.rx.msg k)) ∧
      ∀ m status, (fwReceiveByte L d b).2.handled = some (m, status) →
        2 ≤ d.rx.i ∧ m.len = d.rx.i - 2 ∧ m.len ≤ 67 ∧
        ∃ pre post, rxOps d.rx b.byte = pre ++ .call :: post ∧
          fresh (ops ++ pre) 1 = some m.op ∧
          ∀ k < m.len, fresh (ops ++ pre) (2 + k) = some (m.data k) := by
  intro d ops
  have hinv : BufferInv (fresh ops) d.rx := by
    rw [deviceFeed_rx hrun]
    exact bufferInv_run rfl _
  refine ⟨Nat.le_of_lt_succ hinv.lt, fun slot byte h => Nat.le_of_lt_succ (hinv.store_lt h),
    hinv.filled, fun m status hm => ?_⟩
  obtain ⟨len, hframe, rfl⟩ := fwReceiveByte_handled hm
  obtain ⟨hi, hlen, hle, hop, hdata⟩ := hinv.call hframe
  refine ⟨hi, hlen, hle, [.store d.rx.i b.byte], [.reset 0], rxOps_frame hframe, ?_, ?_⟩
  · rw [fresh, List.foldl_append]
    exact hop
  · rw [fresh, List.foldl_append]
    exact hdata

/-- The frame that ends the session. -/
theorem stop_frame_fresh :
    let r := (sessionStart pic18f25k22 (.powerUp vectorFlash) fun _ => 0).rx
    fresh (rxTrace r [hostMsgStart, hostMsgFlashStop]) 1 = some hostMsgFlashStop :=
  (receive_buffer pic18f25k22 (.powerUp vectorFlash) (fun _ => 0)
    (received [hostMsgStart, hostMsgFlashStop]) ⟨hostMsgEnd, fun _ => 0, fun _ => 0⟩ rfl).2.2.1 1
    (by decide)

end Pic18Boot
