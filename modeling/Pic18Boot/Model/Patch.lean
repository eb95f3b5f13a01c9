import Pic18Boot.Model.Host

/-! # `btld-patch.py`

The build's last step puts the `GOTO` to the bootloader in front of its HEX file. A Python `int` is
`Nat`, a file is the list of its lines. -/

namespace Pic18Boot

/-- `'%02X' % n` -/
def fmt02X (n : Nat) : List Char := ((Nat.toDigits 16 n).map Char.toUpper).leftpad 2 '0'

/-- `goto_instr_1` -/
abbrev gotoInstr1 : Nat := 0xEF
/-- `goto_instr_2` -/
abbrev gotoInstr2 : Nat := 0xF0

/-- `goto_instr` -/
def patchInstr (btldOffset : Nat) : List Nat :=
  -- match how goto loads PC
  let btldOffset := btldOffset >>> 1
  let btldOffHi := (btldOffset >>> 16) &&& 0x0f
  let btldOffMid := (btldOffset >>> 8) &&& 0xff
  let btldOffLo := btldOffset &&& 0xff
  -- place with MCU endianess
  [btldOffLo, gotoInstr1, btldOffMid, btldOffHi ||| gotoInstr2]

/-- `cksum` -/
def patchCksum (instr : List Nat) : Nat :=
  -- count 4 + addr 0 + code 0
  let cksum := instr.foldl (fun cksum i => cksum + i) 4
  256 - cksum % 256

def gotoLine (btldOffset : Nat) : Line :=
  let instr := patchInstr btldOffset
  let line := instr.foldl (fun line i => line ++ fmt02X i)
    [':', '0', '4', '0', '0', '0', '0', '0', '0']
  line ++ fmt02X (patchCksum instr) ++ ['\n']

/-- The lines of `bootloader_patched.hex`. -/
def btldPatch (btldOffset : Nat) (hexIn : List Line) : List Line := gotoLine btldOffset :: hexIn

end Pic18Boot
