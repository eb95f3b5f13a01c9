import Pic18Boot.Theory.Framing
import Pic18Boot.Model.Message

/-! # `btld.py`

The flashing tool after the handshake: its encoders, what it does with a line of the HEX file, and
its main loop as a process that writes to the link and reads replies from it. A Python `int` is
`Nat`, a file is the list of its lines. `hashlib` and `ecdsa` are not part of the repository. -/

namespace Pic18Boot

abbrev Line : Type := List Char

/-- The library calls of the tool. A signature in the `sigencode_string` encoding is two integers of
the size of the curve order, 32 bytes each. -/
structure HostCrypto where
  /-- `hashlib`'s SHA-256 of the bytes fed to `update` -/
  sha256 : List UInt8 → List UInt8
  /-- `sk.sign_digest_deterministic(_, sigencode=sigencode_string)` -/
  signDigest : List UInt8 → List UInt8
  length_signDigest : ∀ digest, (signDigest digest).length = 64

instance : Inhabited HostCrypto := ⟨fun _ => [], fun _ => List.replicate 64 0, fun _ => rfl⟩

def ascii2dec (x : Char) : Nat :=
  if 48 ≤ x.toNat ∧ x.toNat ≤ 57 then x.toNat - 48
  else if 65 ≤ x.toNat ∧ x.toNat ≤ 70 then x.toNat - 55
  else if 97 ≤ x.toNat ∧ x.toNat ≤ 102 then x.toNat - 87
  else 0

/-- The marks of the serial protocol. -/
def uartMarks : Framing.Marks UInt8 where
  start := hostMsgStart
  stop := hostMsgEnd
  esc := hostMsgEsc
  start_ne_stop := by decide
  start_ne_esc := by decide
  stop_ne_esc := by decide

def encodeForUart (data : List UInt8) : List UInt8 :=
  let encoded := data.foldl (fun encoded d =>
    if d = hostMsgStart ∨ d = hostMsgEnd ∨ d = hostMsgEsc then encoded ++ [hostMsgEsc] ++ [d]
    else encoded ++ [d]) [hostMsgStart]
  encoded ++ [hostMsgEnd]

/-- The three bytes of an integer, highest first. -/
def threeBytes (n : Nat) : List UInt8 :=
  [UInt8.ofNat (n >>> 16), UInt8.ofNat (n >>> 8), UInt8.ofNat n]

def encodeData (data : List UInt8) (count addr : Nat) : List UInt8 :=
  encodeForUart (hostMsgFlashData :: UInt8.ofNat count :: (threeBytes addr ++ data))

def encodeSize (fwSize : Nat) : List UInt8 :=
  encodeForUart (hostMsgProgramSize :: threeBytes fwSize)

def encodeSignat (signat : List UInt8) : List UInt8 :=
  encodeForUart (hostMsgProgramSignat :: signat)

/-- `HOST_MSG_START + HOST_MSG_FLASH_STOP + HOST_MSG_END` -/
def stopMsg : List UInt8 := [hostMsgStart, hostMsgFlashStop, hostMsgEnd]

/-- The variables of `main` that the loop over the file changes. -/
structure HostVars where
  nextExpectAddr : Nat := 0
  ignoreNextDataRec : Bool := false
  fwSize : Nat := 0
  addrUpper : Nat := 0
  /-- The bytes fed to `fw_hash` so far. -/
  fwHash : List UInt8 := []

/-- What `main` does with a line before it goes on to the next. -/
inductive LineAction
  /-- `return -1` -/
  | badStart
  | skip
  /-- Write the frame of a data record and wait for the reply. -/
  | flash (frame : List UInt8)
  /-- The end-of-file record: write the size and wait, then the signature. -/
  | finish (frame : List UInt8)

/-- The updates of `fw_hash` for a gap of `fillCnt` bytes. -/
def hashFill (fillCnt : Nat) (fwHash : List UInt8) : List UInt8 :=
  let fillData := List.replicate 64 (0xFF : UInt8)
  let fwHash := Nat.fold (fillCnt / 64) (fun _ _ fwHash => fwHash ++ fillData) fwHash
  if fillCnt % 64 ≠ 0 then fwHash ++ fillData.take (fillCnt % 64) else fwHash

/-- The data bytes of a record; a line that is too short raises `IndexError`. -/
def lineData (ln : Line) (count : Nat) : Option (List UInt8) :=
  (List.range count).mapM fun i => do
    let hi ← ln[9 + i * 2]?
    let lo ← ln[10 + i * 2]?
    return UInt8.ofNat (ascii2dec hi * 16 + ascii2dec lo)

/-- A data record that is not ignored. -/
def hostDataRec (v : HostVars) (ln : Line) (count addr : Nat) : Option (HostVars × LineAction) := do
  let fillCnt := addr - v.nextExpectAddr
  let gap := v.nextExpectAddr < addr
  let fwSize := v.fwSize + count + if gap then fillCnt else 0
  let fwHash := if gap then hashFill fillCnt v.fwHash else v.fwHash
  let data ← lineData ln count
  return ({ v with fwSize, fwHash := fwHash ++ data, nextExpectAddr := addr + count },
    .flash (encodeData data count addr))

/-- The body of the loop over the file; `none` is an `IndexError`. -/
def hostLine (v : HostVars) (ln : Line) : Option (HostVars × LineAction) := do
  if (← ln[0]?) ≠ ':' then return (v, .badStart)
  let count := ascii2dec (← ln[1]?) * 16 + ascii2dec (← ln[2]?)
  let addrHi := ascii2dec (← ln[3]?) <<< 4 ||| ascii2dec (← ln[4]?)
  let addrLo := ascii2dec (← ln[5]?) <<< 4 ||| ascii2dec (← ln[6]?)
  let addr := v.addrUpper <<< 16 ||| addrHi <<< 8 ||| addrLo
  let recType := ascii2dec (← ln[8]?)
  if recType = 0 then
    if v.ignoreNextDataRec then return (v, .skip)
    hostDataRec v ln count addr
  else if recType = 1 then
    return (v, .finish (encodeSize v.fwSize))
  else if recType = 4 then
    let extendedAddrUpper := ascii2dec (← ln[11]?) <<< 4 ||| ascii2dec (← ln[12]?)
    -- every address >1MB we will consider to be unflashable
    if extendedAddrUpper > 0x10 then return ({ v with ignoreNextDataRec := true }, .skip)
    return ({ v with ignoreNextDataRec := false, addrUpper := extendedAddrUpper }, .skip)
  else return (v, .skip)

/-- Where `main` stands; the lines not read yet go along. -/
inductive HostPc
  | reading (file : List Line)
  | waitData (file : List Line)
  | waitSize
  | waitSignat
  /-- `main` has returned. -/
  | returned
  /-- An exception or `sys.exit` ended the tool. -/
  | exited

structure Host where
  vars : HostVars
  pc : HostPc

/-- In `wait_for_mcu`. -/
def Host.Waiting (h : Host) : Prop :=
  match h.pc with
  | .waitData _ | .waitSize | .waitSignat => True
  | _ => False

/-- A step that reads no reply: the next line of the file, with what is written to the link. -/
def hostAct (h : Host) : Option (Host × List UInt8) :=
  match h.pc with
  | .reading [] => some ({ h with pc := .returned }, [])
  | .reading (line :: file) =>
    match hostLine h.vars line with
    | none => some ({ h with pc := .exited }, [])
    | some (vars, .badStart) => some ({ vars, pc := .returned }, [])
    | some (vars, .skip) => some ({ vars, pc := .reading file }, [])
    | some (vars, .flash frame) => some ({ vars, pc := .waitData file }, frame)
    | some (vars, .finish frame) => some ({ vars, pc := .waitSize }, frame)
  | _ => none

/-- `wait_for_mcu` reads `resp`, and `main` goes on to its next read if that was the reply. -/
def hostRecv (C : HostCrypto) (h : Host) (resp : UInt8) : Host × List UInt8 :=
  if resp = mcuMsgOpSuccess then
    match h.pc with
    | .waitData file => ({ h with pc := .reading file }, [])
    | .waitSize =>
      ({ h with pc := .waitSignat }, encodeSignat (C.signDigest (C.sha256 h.vars.fwHash)))
    | .waitSignat => ({ h with pc := .returned }, stopMsg)
    | _ => (h, [])
  else if resp = mcuErrInvalidPayload ∨ resp = mcuErrDeniedAddr then ({ h with pc := .exited }, [])
  else (h, [])

/-- The tool at the top of its loop over the file. -/
def hostStart (file : List Line) : Host := { vars := {}, pc := .reading file }

theorem encodeForUart_eq (data : List UInt8) :
    encodeForUart data = Framing.encode uartMarks data := by
  suffices H : ∀ acc : List UInt8, data.foldl (fun encoded d =>
      if d = hostMsgStart ∨ d = hostMsgEnd ∨ d = hostMsgEsc then encoded ++ [hostMsgEsc] ++ [d]
      else encoded ++ [d]) acc = acc ++ data.flatMap (Framing.escape uartMarks) by
    simp only [encodeForUart, H, Framing.encode, List.cons_append, List.nil_append, uartMarks]
  induction data with
  | nil => simp
  | cons d data ih =>
    intro acc
    have hesc : Framing.escape uartMarks d =
        if d = hostMsgStart ∨ d = hostMsgEnd ∨ d = hostMsgEsc then [hostMsgEsc, d] else [d] := rfl
    rw [List.foldl_cons, ih, List.flatMap_cons, hesc]
    split <;> simp

end Pic18Boot
