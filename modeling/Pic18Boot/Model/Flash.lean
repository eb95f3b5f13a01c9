import Pic18Boot.Theory.Loop
import Pic18Boot.Model.Hardware

/-! # `flash.c`

`uint24_t` is `Nat` modulo `2 ^ 24`, `size_t` is `Nat` modulo `2 ^ 16`; a `uint8_t *` is a function
from offsets. `mem` is the size of program memory. -/

namespace Pic18Boot

abbrev flashBlockSiz : Nat := 64

/-- `struct table_pointers` -/
structure TablePointers where
  up : UInt8
  hi : UInt8
  lo : UInt8

def saveTablePointers (s : Nvm) : TablePointers := ⟨s.tblptru, s.tblptrh, s.tblptrl⟩

def restoreTablePointers (tp : TablePointers) (s : Nvm) : Nvm :=
  { s with tblptru := tp.up, tblptrh := tp.hi, tblptrl := tp.lo }

/-- The three assignments by which every function of the file points the table pointer at `addr`. -/
def loadTblptr (addr : Nat) (s : Nvm) : Nvm :=
  { s with
    tblptru := UInt8.ofNat (addr >>> 16)
    tblptrh := UInt8.ofNat (addr >>> 8)
    tblptrl := UInt8.ofNat addr }

/-- One pass of the loop in `write_flash`, on the loop's `addr` and the hardware. -/
def writeFlashByte (mem : Nat) (buf : Nat → UInt8) (count i : Nat) (st : Nat × Nvm) : Nat × Nvm :=
  let addr := st.1
  let s := { st.2 with tablat := buf i }
  let s :=
    if (addr + 1) % 2 ^ 24 % flashBlockSiz = 0 ∨ i = count - 1 then
      -- `TBLWT*` keeps the pointer in the block to commit; the read only advances it
      (s.tblwt.startProgram mem).tblrdPostInc
    else
      s.tblwtPostInc
  ((addr + 1) % 2 ^ 24, s)

def writeFlash (mem addr : Nat) (buf : Nat → UInt8) (count : Nat) (s : Nvm) : Nvm :=
  let tp := saveTablePointers s
  let s := loadTblptr addr s
  let st := Nat.fold count (fun i _ st => writeFlashByte mem buf count i st) (addr, s)
  restoreTablePointers tp st.2

/-- The buffer the bytes are read into is returned with the hardware state. -/
def readFlash (address : Nat) (buf : Nat → UInt8) (count : Nat) (s : Nvm) : (Nat → UInt8) × Nvm :=
  let tp := saveTablePointers s
  let s := loadTblptr address s
  let st := Nat.fold count (fun i _ (st : (Nat → UInt8) × Nvm) =>
    let s := st.2.tblrdPostInc
    (Function.update st.1 i s.tablat, s)) (buf, s)
  (st.1, restoreTablePointers tp st.2)

def flashEraseBlk (mem blkIdx : Nat) (s : Nvm) : Nvm :=
  let blkAddr := blkIdx * flashBlockSiz % 2 ^ 24
  let tp := saveTablePointers s
  let s := loadTblptr blkAddr s
  restoreTablePointers tp (s.startErase mem)

/-- One pass of the loop in `erase_flash`. -/
def eraseFlashBlk (mem : Nat) (saveGotoBtld : Nat → UInt8) (currEraseBlk : Nat) (s : Nvm) : Nvm :=
  let s := flashEraseBlk mem currEraseBlk s
  if currEraseBlk = 0 then writeFlash mem 0 saveGotoBtld 4 s else s

def eraseFlash (mem btldAddr : Nat) (s : Nvm) : Nvm :=
  let eraseBlkCnt := btldAddr / flashBlockSiz % 2 ^ 16
  -- `save_goto_btld` is not initialised; `read_flash` fills it
  let r := readFlash 0 (fun _ => 0) 4 s
  let saveGotoBtld := r.1
  let s := flashEraseBlk mem 1 r.2
  let s := writeFlash mem flashBlockSiz saveGotoBtld 4 s
  Nat.fold eraseBlkCnt (fun blk _ s => eraseFlashBlk mem saveGotoBtld blk s) s

variable {s : Nvm} {addr : Nat} {tp : TablePointers}

@[simp] theorem tblptr_loadTblptr : (loadTblptr addr s).tblptr = addr % 2 ^ 22 := by
  simp only [Nvm.tblptr, loadTblptr, UInt8.toNat_ofNat']
  omega

@[simp] theorem flash_loadTblptr : (loadTblptr addr s).flash = s.flash := rfl
@[simp] theorem holding_loadTblptr : (loadTblptr addr s).holding = s.holding := rfl
@[simp] theorem ops_loadTblptr : (loadTblptr addr s).ops = s.ops := rfl

@[simp] theorem flash_restoreTablePointers : (restoreTablePointers tp s).flash = s.flash := rfl
@[simp] theorem holding_restoreTablePointers :
    (restoreTablePointers tp s).holding = s.holding := rfl
@[simp] theorem ops_restoreTablePointers : (restoreTablePointers tp s).ops = s.ops := rfl
@[simp] theorem saveTablePointers_restore :
    saveTablePointers (restoreTablePointers tp s) = tp := rfl

end Pic18Boot
