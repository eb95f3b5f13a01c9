import Pic18Boot.Model.Receive
import Pic18Boot.Model.Signature

/-! # The handshake

The loop of `btld.py` before the first line of the HEX file, and `main` of the bootloader up to
`fw_receive` and on. One label is one step of the host, of the device or of the link; the timeouts
of both sides may fire at any moment. Bytes wait for the host without limit; on the other side they
are lost while the receiver is off. -/

namespace Pic18Boot

/-- `"@BTL\n"` -/
abbrev hostHandshakeMsg : List UInt8 := [hostMsgStart, 0x42, 0x54, 0x4C, hostMsgEnd]

/-- `"@OK\n"` -/
abbrev mcuHandshakeResp : List UInt8 := [hostMsgStart, 0x4F, 0x4B, hostMsgEnd]

abbrev mcuMsgSigCheckOk : UInt8 := 0x53 -- 'S'
abbrev mcuMsgSigCheckFail : UInt8 := 0x4B -- 'K'

/-- Where the host stands. A byte read goes with the session it was sent in. -/
inductive HostPhase
  /-- The bytes of the message still to be written. -/
  | sending (rest : List UInt8)
  /-- In `ser.read(4)`, which has read `got`. -/
  | reading (got : List (UInt8 × Nat))
  /-- The loop was left with this reply. -/
  | left (reply : List (UInt8 × Nat))

/-- Where the device stands. -/
inductive DevicePhase
  /-- Before `uart_rx_enable`. -/
  | booting
  /-- In `uart_expect_msg`, with `i` bytes of the message matched. -/
  | listening (i : Nat)
  /-- In `signature_valid`. -/
  | checking
  | userCode
  /-- The message has been received, the receiver is still on. -/
  | expected
  /-- In `erase_flash`. -/
  | erasing
  /-- The bytes of the reply still to be sent. -/
  | replying (rest : List UInt8)
  /-- In `fw_receive`. -/
  | receiving (d : Device)

def DevicePhase.rxOn : DevicePhase → Bool
  | .booting | .erasing | .replying _ => false
  | .listening _ | .checking | .userCode | .expected | .receiving _ => true

structure Handshake where
  host : HostPhase
  device : DevicePhase
  nvm : Nvm
  /-- What the host has written and the device's receiver has not seen. -/
  wire : List UInt8
  /-- What the receiver holds. -/
  fifo : List UInt8
  /-- What the device has sent and the host has not read, with the session it was sent in. -/
  down : List (UInt8 × Nat)
  /-- The handshake messages received so far. -/
  session : Nat
  /-- The calls of `message_handle` in this session. -/
  decoded : Nat

/-- The loop of `uart_expect_msg` on a byte, with `i` bytes matched before it. -/
def uartExpectByte (msg : List UInt8) (i : Nat) (byte : UInt8) : Nat :=
  if msg[i]? = some byte then i + 1 else 0

inductive Label
  /-- The host writes a byte of the message. -/
  | send
  /-- The host reads a byte. -/
  | read
  /-- `ser.read(4)` times out. -/
  | giveUp
  /-- A byte reaches the device. -/
  | arrive
  | boot
  /-- `uart_expect_msg` reads a byte. -/
  | expect
  /-- `uart_expect_msg` times out. -/
  | timeout
  | check
  /-- The user code ends in a reset. -/
  | restart
  | disable
  | erase
  /-- The device sends a byte of its reply. -/
  | reply
  /-- The receiver is switched on, and `fw_receive` called with this in `msg`. -/
  | enable (msg : Nat → UInt8)
  /-- `fw_receive` reads a byte. -/
  | receive (ram : Ram)

namespace Handshake

def send (c : Handshake) : Option Handshake :=
  match c.host with
  | .sending (b :: rest) =>
    some { c with
      host := if rest = [] then .reading [] else .sending rest
      wire := c.wire ++ [b] }
  | _ => none

def read (c : Handshake) : Option Handshake :=
  match c.host, c.down with
  | .reading got, b :: down =>
    let got := got ++ [b]
    some { c with
      host :=
        if got.length < 4 then .reading got
        else if got.map Prod.fst = mcuHandshakeResp then .left got
        else .sending hostHandshakeMsg
      down := down }
  | _, _ => none

/-- Less than the whole reply was read. -/
def giveUp (c : Handshake) : Option Handshake :=
  match c.host with
  | .reading _ => some { c with host := .sending hostHandshakeMsg }
  | _ => none

def arrive (c : Handshake) : Option Handshake :=
  match c.wire with
  | b :: wire =>
    some { c with wire := wire, fifo := if c.device.rxOn then c.fifo ++ [b] else c.fifo }
  | [] => none

def expect (c : Handshake) : Option Handshake :=
  match c.device, c.fifo with
  | .listening i, b :: fifo =>
    let i := uartExpectByte hostHandshakeMsg i b
    if i = hostHandshakeMsg.length then
      some { c with device := .expected, fifo := fifo, session := c.session + 1, decoded := 0 }
    else some { c with device := .listening i, fifo := fifo }
  | _, _ => none

/-- The user code is started, or the device resets. -/
def check (uECCVerify : List UInt8 → List UInt8 → List UInt8 → Bool) (L : Layout)
    (c : Handshake) : Option Handshake :=
  match c.device with
  | .checking =>
    let r := signatureValid uECCVerify L c.nvm
    if r.1 then
      some { c with
        device := .userCode
        nvm := r.2
        down := c.down ++ [(mcuMsgSigCheckOk, c.session)] }
    else
      some { c with
        device := .booting
        nvm := r.2
        fifo := []
        down := c.down ++ [(mcuMsgSigCheckFail, c.session)] }
  | _ => none

def reply (c : Handshake) : Option Handshake :=
  match c.device with
  | .replying (b :: rest) =>
    some { c with device := .replying rest, down := c.down ++ [(b, c.session)] }
  | _ => none

/-- One byte in `fw_receive`; when it has returned, the device resets. -/
def receive (L : Layout) (ram : Ram) (c : Handshake) : Option Handshake :=
  match c.device, c.fifo with
  | .receiving d, b :: fifo =>
    let r := fwReceiveByte L d ⟨b, ram⟩
    some { c with
      device := if r.1.running then .receiving r.1 else .booting
      nvm := r.1.nvm
      fifo := if r.1.running then fifo else []
      down := c.down ++ r.2.sent.map fun b => (b, c.session)
      decoded := if r.2.handled.isSome then c.decoded + 1 else c.decoded }
  | _, _ => none

variable (uECCVerify : List UInt8 → List UInt8 → List UInt8 → Bool) (L : Layout)

def step : Label → Handshake → Option Handshake
  | .send, c => c.send
  | .read, c => c.read
  | .giveUp, c => c.giveUp
  | .arrive, c => c.arrive
  | .boot, c =>
    match c.device with
    | .booting => some { c with device := .listening 0 }
    | _ => none
  | .expect, c => c.expect
  | .timeout, c =>
    -- a byte read in the last pass is lost, as all of the buffer is in the reset that follows
    match c.device with
    | .listening _ => some { c with device := .checking }
    | _ => none
  | .check, c => c.check uECCVerify L
  | .restart, c =>
    match c.device with
    | .userCode => some { c with device := .booting, fifo := [] }
    | _ => none
  | .disable, c =>
    match c.device with
    | .expected => some { c with device := .erasing }
    | _ => none
  | .erase, c =>
    match c.device with
    | .erasing =>
      some { c with
        device := .replying mcuHandshakeResp
        nvm := eraseFlash L.mem L.btldOffset c.nvm }
    | _ => none
  | .reply, c => c.reply
  | .enable msg, c =>
    match c.device with
    | .replying [] =>
      some { c with
        device := .receiving
          { nvm := c.nvm, rx := { msg := msg, i := 0, escaped := false }, running := true } }
    | _ => none
  | .receive ram, c => c.receive L ram

/-- Both sides are started. -/
def start (s : Nvm) : Handshake where
  host := .sending hostHandshakeMsg
  device := .booting
  nvm := s
  wire := []
  fifo := []
  down := []
  session := 0
  decoded := 0

end Handshake

end Pic18Boot
