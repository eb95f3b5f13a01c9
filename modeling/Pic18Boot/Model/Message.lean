import Pic18Boot.Model.Flash
import Pic18Boot.Model.Layout

/-! # `message_handle`

One flashing command. `data` is the pointer the code is given: `data k` may lie past the `len` bytes
received, as it may in C. -/

namespace Pic18Boot

abbrev hostMsgStart : UInt8 := 0x40 -- '@'
abbrev hostMsgEnd : UInt8 := 0x0A -- '\n'
abbrev hostMsgEsc : UInt8 := 0x5C -- '\\'

abbrev hostMsgProgramSize : UInt8 := 0x4D -- 'M'
abbrev hostMsgProgramSignat : UInt8 := 0x4E -- 'N'
abbrev hostMsgFlashData : UInt8 := 0x44 -- 'D'
abbrev hostMsgFlashStop : UInt8 := 0x58 -- 'X'

abbrev mcuMsgOpSuccess : UInt8 := 0x46 -- 'F'
abbrev mcuErrInvalidPayload : UInt8 := 0x49 -- 'I'
abbrev mcuErrDeniedAddr : UInt8 := 0x41 -- 'A'

abbrev hostMsgDataPayloadOffset : Nat := 4

/-- `enum flashing_status` -/
inductive FlashingStatus
  | noErr
  | flashingDone
  | errInvalidPayload
  | errDeniedAddr
  deriving DecidableEq, Repr

/-- The values C gives the enumeration. -/
def FlashingStatus.toNat : FlashingStatus → Nat
  | .noErr => 0
  | .flashingDone => 1
  | .errInvalidPayload => 2
  | .errDeniedAddr => 3

/-- `(uint24_t)data[1] << 16 | (uint24_t)data[2] << 8 | data[3]` -/
def dataAddr (data : Nat → UInt8) : Nat :=
  (data 1).toNat <<< 16 ||| (data 2).toNat <<< 8 ||| (data 3).toNat

/-- `addr + payload_size >= SIGNAT_OFFSET`, in 24 bits. -/
def DeniedAddr (L : Layout) (data : Nat → UInt8) : Prop :=
  L.signatOffset ≤ (dataAddr data + (data 0).toNat) % 2 ^ 24

instance (L : Layout) (data : Nat → UInt8) : Decidable (DeniedAddr L data) :=
  inferInstanceAs (Decidable (_ ≤ _))

/-- The writes of an accepted `HOST_MSG_FLASH_DATA`. -/
def flashData (L : Layout) (data : Nat → UInt8) (s : Nvm) : Nvm :=
  let payloadSize := (data 0).toNat
  let addr := dataAddr data
  if addr = 0 then
    -- the user code's `GOTO` goes to 4, what the image has at 4..7 is dropped
    let s := writeFlash L.mem 4 (fun k => data (hostMsgDataPayloadOffset + k)) 4 s
    if payloadSize > 8 then
      writeFlash L.mem 8 (fun k => data (hostMsgDataPayloadOffset + 8 + k)) (payloadSize - 8) s
    else s
  else
    writeFlash L.mem addr (fun k => data (hostMsgDataPayloadOffset + k)) payloadSize s

def messageHandle (L : Layout) (op : UInt8) (data : Nat → UInt8) (len : Nat) (s : Nvm) :
    FlashingStatus × Nvm :=
  if op = hostMsgProgramSize then
    if len ≠ codeSizeBytes then (.errInvalidPayload, s)
    else (.noErr, writeFlash L.mem L.codeSizeOffset data codeSizeBytes s)
  else if op = hostMsgProgramSignat then
    if len ≠ signatSize then (.errInvalidPayload, s)
    else (.noErr, writeFlash L.mem L.signatOffset data signatSize s)
  else if op = hostMsgFlashData then
    if len < 5 then (.errInvalidPayload, s)
    else if DeniedAddr L data then (.errDeniedAddr, s)
    else (.noErr, flashData L data s)
  else if op = hostMsgFlashStop then
    if len > 0 then (.errInvalidPayload, s)
    else (.flashingDone, s)
  else (.errInvalidPayload, s)

end Pic18Boot
