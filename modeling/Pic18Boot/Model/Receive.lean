import Pic18Boot.Model.Message

/-! # `fw_receive` and the session in `main`

A flashing session is `erase_flash` followed by `fw_receive`; when that returns, `main` sends the
status reply and resets. One pass of the receive loop takes one byte (`rxByte`, then
`fwReceiveByte`); `deviceFeed` runs the session over the bytes the UART delivers. -/

namespace Pic18Boot

/-- `sizeof(msg)` -/
abbrev sizeofMsg : Nat := 70

/-- The variables of `fw_receive`; `msg` is RAM from the array's first byte on. -/
structure Rx where
  msg : Nat → UInt8
  i : Nat
  escaped : Bool

/-- What a pass of the loop comes to. -/
inductive RxEvent
  /-- The byte is kept. -/
  | more
  /-- The end of a frame without an operation byte. -/
  | empty
  /-- `message_handle(msg[1], msg + 2, len)` -/
  | frame (len : Nat)
  deriving DecidableEq, Repr

/-- One pass of the loop of `fw_receive`, up to the call of `message_handle`. After the call `i` is
reset whenever the loop goes on. -/
def rxByte (r : Rx) (byte : UInt8) : Rx × RxEvent :=
  if byte = hostMsgEsc ∧ r.escaped = false then
    -- next byte needs escaping
    ({ r with escaped := true }, .more)
  else
    let msg := Function.update r.msg r.i byte
    let next := if r.i + 1 = sizeofMsg then 0 else r.i + 1
    if r.escaped then
      ({ msg, i := next, escaped := false }, .more)
    else if byte = hostMsgStart ∧ r.i > 0 then
      -- unexpected start of message, reset buffer
      ({ msg := Function.update msg 0 hostMsgStart, i := 1, escaped := false }, .more)
    else if msg r.i = hostMsgEnd ∧ msg 0 = hostMsgStart then
      ({ msg, i := 0, escaped := false }, if r.i > 1 then .frame (r.i - 2) else .empty)
    else
      ({ msg, i := next, escaped := false }, .more)

/-- What RAM holds past the two arrays the code can index outside of. -/
structure Ram where
  afterMsg : Nat → UInt8
  afterErrs : Nat → UInt8

/-- A byte from the UART, and RAM at that moment. -/
structure Rcv where
  byte : UInt8
  ram : Ram

/-- The arguments of a call of `message_handle`. -/
structure Msg where
  op : UInt8
  data : Nat → UInt8
  len : Nat

/-- The payload bytes received. -/
def Msg.received (m : Msg) : List UInt8 := Buf.toList m.data m.len

def Rx.call (r : Rx) (ram : Ram) (len : Nat) : Msg where
  op := r.msg 1
  data k := if 2 + k < sizeofMsg then r.msg (2 + k) else ram.afterMsg (2 + k - sizeofMsg)
  len := len

structure Device where
  nvm : Nvm
  rx : Rx
  /-- `fw_receive` has not returned. -/
  running : Bool

/-- What one byte makes the device do: the call of `message_handle` with the status it returned, and
the bytes sent. -/
structure Reaction where
  handled : Option (Msg × FlashingStatus)
  sent : List UInt8

/-- `mcu_errs` -/
def mcuErrs : List UInt8 := [mcuMsgOpSuccess, mcuErrInvalidPayload, mcuErrDeniedAddr]

/-- `mcu_errs[status]` -/
def mcuErr (ram : Ram) (status : FlashingStatus) : UInt8 :=
  (mcuErrs[status.toNat]?).getD (ram.afterErrs (status.toNat - mcuErrs.length))

/-- What `main` sends once `fw_receive` has returned `status`. -/
def mainReply (ram : Ram) (status : FlashingStatus) : List UInt8 :=
  if status ≠ .noErr then [mcuErr ram status] else []

/-- The call of `message_handle` for a complete frame: the loop goes on, or `fw_receive` returns and
`main` sends the status. After the reset that follows nothing more is received in this session. -/
def handleFrame (L : Layout) (nvm : Nvm) (rx : Rx) (ram : Ram) (m : Msg) : Device × Reaction :=
  let (status, nvm) := messageHandle L m.op m.data m.len nvm
  if status = .flashingDone ∨ status ≠ .noErr then
    ({ nvm, rx, running := false }, ⟨some (m, status), mainReply ram status⟩)
  else
    ({ nvm, rx, running := true }, ⟨some (m, status), [mcuMsgOpSuccess]⟩)

/-- One byte in `fw_receive`, and the rest of `main` when it returns on it. -/
def fwReceiveByte (L : Layout) (d : Device) (b : Rcv) : Device × Reaction :=
  if d.running = false then (d, ⟨none, []⟩)
  else
    match rxByte d.rx b.byte with
    | (rx, .more) => ({ d with rx }, ⟨none, []⟩)
    | (rx, .empty) => ({ d with rx }, ⟨none, [mcuMsgOpSuccess]⟩)
    | (rx, .frame len) => handleFrame L d.nvm rx b.ram (rx.call b.ram len)

/-- The device over a stream of bytes, with its reaction to each. -/
def deviceFeed (L : Layout) : Device → List Rcv → Device × List Reaction
  | d, [] => (d, [])
  | d, b :: bs =>
    let r := fwReceiveByte L d b
    let rest := deviceFeed L r.1 bs
    (rest.1, r.2 :: rest.2)

/-- The session as `fw_receive` finds it: flash just erased, `msg` not initialised. -/
def sessionStart (L : Layout) (s : Nvm) (msg : Nat → UInt8) : Device where
  nvm := eraseFlash L.mem L.btldOffset s
  rx := { msg, i := 0, escaped := false }
  running := true

variable {L : Layout} {d : Device} {bs cs : List Rcv}

@[simp] theorem deviceFeed_nil : deviceFeed L d [] = (d, []) := rfl

theorem deviceFeed_append : deviceFeed L d (bs ++ cs) =
    ((deviceFeed L (deviceFeed L d bs).1 cs).1,
      (deviceFeed L d bs).2 ++ (deviceFeed L (deviceFeed L d bs).1 cs).2) := by
  induction bs generalizing d with
  | nil => rfl
  | cons b bs ih => simp only [List.cons_append, deviceFeed, ih]

@[simp] theorem length_deviceFeed : (deviceFeed L d bs).2.length = bs.length := by
  induction bs generalizing d with
  | nil => rfl
  | cons b bs ih => simp only [deviceFeed, List.length_cons, ih]

end Pic18Boot
