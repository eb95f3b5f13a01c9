import Mathlib.Algebra.Group.Nat.Defs
import Pic18Boot.Theory.NorFlash

/-! # The program memory of the PIC18 as the bootloader sees it

The registers and operations behind `flash.c`: the 22-bit table pointer held in three registers,
the 64 holding registers, the table latch, and the two operations the controller starts when
`EECON1bits.WR` is set. Program memory is `[0, mem)`; an operation started with the pointer above it
(user ID, configuration and unimplemented space) has no effect on program memory. -/

namespace Pic18Boot

/-- A byte of erased flash. -/
abbrev blank : UInt8 := 0xFF

structure Nvm where
  flash : Nat → UInt8
  /-- The holding registers of the block being written, indexed by `TBLPTR<5:0>`. -/
  holding : Nat → UInt8
  tblptru : UInt8
  tblptrh : UInt8
  tblptrl : UInt8
  tablat : UInt8
  /-- The controller's operations so far. The code never reads it; it records what a power cut
  can separate. -/
  ops : List (NorFlash.Op Nat UInt8)

/-- `WR` with `FREE` set: erase the 64-byte block `blk`. -/
def eraseBlock (mem blk : Nat) : NorFlash.Op Nat UInt8 :=
  .erase fun a => a < mem && a / 64 == blk

/-- What programming the holding registers into the 64-byte block `blk` conjoins. -/
def blockMask (mem blk : Nat) (holding : Nat → UInt8) (a : Nat) : UInt8 :=
  if a < mem ∧ a / 64 = blk then holding (a % 64) else blank

/-- `WR` with `FREE` clear: program the holding registers into the 64-byte block `blk`. -/
def programBlock (mem blk : Nat) (holding : Nat → UInt8) : NorFlash.Op Nat UInt8 :=
  .program (blockMask mem blk holding)

namespace Nvm

/-- The table pointer: bits 7:6 of `TBLPTRU` are not implemented. -/
def tblptr (s : Nvm) : Nat :=
  s.tblptru.toNat % 64 * 65536 + s.tblptrh.toNat * 256 + s.tblptrl.toNat

def setTblptr (s : Nvm) (p : Nat) : Nvm :=
  { s with
    tblptru := UInt8.ofNat (p / 65536 % 64)
    tblptrh := UInt8.ofNat (p / 256)
    tblptrl := UInt8.ofNat p }

/-- `TBLWT*` -/
def tblwt (s : Nvm) : Nvm :=
  { s with holding := Function.update s.holding (s.tblptr % 64) s.tablat }

/-- `TBLWT*+` -/
def tblwtPostInc (s : Nvm) : Nvm := s.tblwt.setTblptr (s.tblptr + 1)

/-- `TBLRD*+` -/
def tblrdPostInc (s : Nvm) : Nvm :=
  { s with tablat := s.flash s.tblptr }.setTblptr (s.tblptr + 1)

/-- The controller carries out one operation. -/
def perform (s : Nvm) (o : NorFlash.Op Nat UInt8) : Nvm :=
  { s with flash := o.apply blank s.flash, ops := s.ops ++ [o] }

/-- Programming also resets the holding registers. -/
def startProgram (mem : Nat) (s : Nvm) : Nvm :=
  { s.perform (programBlock mem (s.tblptr / 64) s.holding) with holding := fun _ => blank }

def startErase (mem : Nat) (s : Nvm) : Nvm := s.perform (eraseBlock mem (s.tblptr / 64))

/-- No byte is waiting in the holding registers. -/
def Idle (s : Nvm) : Prop := s.holding = fun _ => blank

/-- The state after a reset with the flash `f`. -/
def powerUp (f : Nat → UInt8) : Nvm :=
  { flash := f, holding := fun _ => blank, tblptru := 0, tblptrh := 0, tblptrl := 0, tablat := 0,
    ops := [] }

variable {s : Nvm} {p mem : Nat}

theorem idle_powerUp (f : Nat → UInt8) : (powerUp f).Idle := rfl

@[simp] theorem tblptr_setTblptr : (s.setTblptr p).tblptr = p % 2 ^ 22 := by
  simp only [tblptr, setTblptr, UInt8.toNat_ofNat']
  omega

@[simp] theorem flash_setTblptr : (s.setTblptr p).flash = s.flash := rfl
@[simp] theorem holding_setTblptr : (s.setTblptr p).holding = s.holding := rfl
@[simp] theorem tablat_setTblptr : (s.setTblptr p).tablat = s.tablat := rfl
@[simp] theorem ops_setTblptr : (s.setTblptr p).ops = s.ops := rfl

@[simp] theorem flash_tblwt : s.tblwt.flash = s.flash := rfl
@[simp] theorem tblptr_tblwt : s.tblwt.tblptr = s.tblptr := rfl
@[simp] theorem ops_tblwt : s.tblwt.ops = s.ops := rfl

@[simp] theorem flash_tblwtPostInc : s.tblwtPostInc.flash = s.flash := rfl
@[simp] theorem holding_tblwtPostInc : s.tblwtPostInc.holding = s.tblwt.holding := rfl
@[simp] theorem ops_tblwtPostInc : s.tblwtPostInc.ops = s.ops := rfl
@[simp] theorem tblptr_tblwtPostInc : s.tblwtPostInc.tblptr = (s.tblptr + 1) % 2 ^ 22 := by
  rw [tblwtPostInc, tblptr_setTblptr]

@[simp] theorem flash_tblrdPostInc : s.tblrdPostInc.flash = s.flash := by
  rw [tblrdPostInc, flash_setTblptr]
@[simp] theorem holding_tblrdPostInc : s.tblrdPostInc.holding = s.holding := by
  rw [tblrdPostInc, holding_setTblptr]
@[simp] theorem ops_tblrdPostInc : s.tblrdPostInc.ops = s.ops := by
  rw [tblrdPostInc, ops_setTblptr]
@[simp] theorem tablat_tblrdPostInc : s.tblrdPostInc.tablat = s.flash s.tblptr := rfl
@[simp] theorem tblptr_tblrdPostInc : s.tblrdPostInc.tblptr = (s.tblptr + 1) % 2 ^ 22 := by
  rw [tblrdPostInc, tblptr_setTblptr]

@[simp] theorem holding_startProgram : (s.startProgram mem).holding = fun _ => blank := rfl
@[simp] theorem tblptr_startProgram : (s.startProgram mem).tblptr = s.tblptr := rfl
@[simp] theorem holding_startErase : (s.startErase mem).holding = s.holding := rfl

end Nvm

end Pic18Boot
