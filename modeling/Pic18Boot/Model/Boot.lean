import Pic18Boot.Model.Ecdsa
import Pic18Boot.Model.Handshake
import Pic18Boot.Model.Uart

/-! # A device over its resets

`main` from a reset to its end, and what befalls a device: runs of the bootloader, whole or cut off
by a loss of power, resets out of the user code, and resets that do not come to the bootloader. -/

namespace Pic18Boot
open NorFlash

/-- `SHA256_BLOCK_SIZE` -/
abbrev sha256BlockSize : Nat := 32

/-- `uECC_verify(_, _, SHA256_BLOCK_SIZE, _, uECC_secp256k1())` -/
def verifySecp256k1 (publicKey messageHash signature : List UInt8) : Bool :=
  uECCVerify publicKey messageHash sha256BlockSize signature curveSecp256k1 == some true

/-! ## `main` -/

/-- What a run of `main` meets with. -/
structure Turn where
  /-- What `uart_expect_msg` finds at each look at `RC1IF`. -/
  poll : Nat → Option UInt8
  /-- RAM where `fw_receive` has its `msg`. -/
  msg : Nat → UInt8
  /-- The bytes `fw_receive` reads. -/
  rs : List Rcv

/-- The handshake message comes in time. -/
def Turn.Expected (t : Turn) : Prop := uartExpectMsg t.poll hostHandshakeMsg 60000 = 0

instance (t : Turn) : Decidable t.Expected := inferInstanceAs (Decidable (_ = _))

inductive Ending
  /-- `goto 4` -/
  | userCode
  | reset
  /-- `fw_receive` waits for a byte. -/
  | receiving
  deriving DecidableEq

structure MainRun where
  nvm : Nvm
  sent : List UInt8
  ending : Ending

def main (uECCVerify : List UInt8 → List UInt8 → List UInt8 → Bool) (L : Layout) (t : Turn)
    (s : Nvm) : MainRun :=
  if t.Expected then
    let r := deviceFeed L (sessionStart L s t.msg) t.rs
    { nvm := r.1.nvm
      sent := mcuHandshakeResp ++ r.2.flatMap Reaction.sent
      ending := if r.1.running then .receiving else .reset }
  else
    -- nothing interesting from PC, booting old code
    let r := signatureValid uECCVerify L s
    if r.1 then { nvm := r.2, sent := [mcuMsgSigCheckOk], ending := .userCode }
    else { nvm := r.2, sent := [mcuMsgSigCheckFail], ending := .reset }

/-! ## Resets -/

/-- The target of the first `GOTO` from `pc` on, if only `NOP`s come before it; `words` are looked
at. -/
def firstJump (f : Nat → UInt8) : Nat → Nat → Option Nat
  | 0, _ => none
  | words + 1, pc =>
    match gotoTarget f pc with
    | some target => some target
    | none =>
      if 0xF0 ≤ f (pc + 1) ∨ f pc = 0 ∧ f (pc + 1) = 0 then firstJump f words (pc + 2) else none

/-- A reset comes to the bootloader. -/
def Boots (L : Layout) (f : Nat → UInt8) : Prop := firstJump f (L.mem / 2) 0 = some L.btldOffset

instance (L : Layout) (f : Nat → UInt8) : Decidable (Boots L f) :=
  inferInstanceAs (Decidable (_ = _))

inductive Mode
  /-- Held in reset, or without power. -/
  | reset
  | userCode
  /-- A reset ran something else than the bootloader. -/
  | astray
  deriving DecidableEq

structure Chip where
  flash : Nat → UInt8
  mode : Mode

inductive Event
  /-- The bootloader runs from a reset to its end, or until it is reset in `fw_receive`. -/
  | run (t : Turn)
  /-- Power fails after `cut` operations of the flash controller. -/
  | powerLoss (t : Turn) (cut : Nat)
  /-- The user code ends in a reset and leaves this flash. -/
  | restart (f : Nat → UInt8)
  /-- A reset that does not come to the bootloader; what runs leaves this flash. -/
  | stray (f : Nat → UInt8)

namespace Chip
variable (uECCVerify : List UInt8 → List UInt8 → List UInt8 → Bool) (L : Layout)

def step : Event → Chip → Option Chip
  | .run t, ⟨f, .reset⟩ =>
    if Boots L f then
      let r := main uECCVerify L t (.powerUp f)
      some ⟨r.nvm.flash, if r.ending = .userCode then .userCode else .reset⟩
    else none
  | .powerLoss t cut, ⟨f, .reset⟩ =>
    if Boots L f then
      let r := main uECCVerify L t (.powerUp f)
      some ⟨replay blank (r.nvm.ops.take cut) f, .reset⟩
    else none
  | .restart f, ⟨_, .userCode⟩ => some ⟨f, .reset⟩
  | .stray f', ⟨f, .reset⟩ => if Boots L f then none else some ⟨f', .astray⟩
  | _, _ => none

end Chip

end Pic18Boot
