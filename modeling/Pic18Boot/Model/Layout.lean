import Pic18Boot.Model.Hardware

/-! # Where things are in flash

The build's constants and the reset vector. `BTLD_OFFSET` and the part are chosen at build time, so
they are a structure; the repository's own build is `pic18f25k22`. -/

namespace Pic18Boot

/-- A part and a bootloader offset it is built for. -/
structure Layout where
  /-- Bytes of program memory; the table pointer reaches 2 MiB of it. -/
  mem : Nat
  /-- `BTLD_OFFSET` -/
  btldOffset : Nat
  aligned : btldOffset % 64 = 0
  two_blocks : 128 ≤ btldOffset
  btld_lt : btldOffset < mem
  mem_le : mem ≤ 2 ^ 21

/-- The part and the `OFFSET` of the repository's Makefile. -/
def pic18f25k22 : Layout where
  mem := 0x8000
  btldOffset := 0x1000
  aligned := rfl
  two_blocks := by decide
  btld_lt := by decide
  mem_le := by decide

abbrev signatSize : Nat := 64
abbrev codeSizeBytes : Nat := 3

namespace Layout

def codeSizeOffset (L : Layout) : Nat := L.btldOffset - codeSizeBytes
def signatOffset (L : Layout) : Nat := L.codeSizeOffset - signatSize

variable (L : Layout)

theorem codeSizeOffset_eq : L.codeSizeOffset + 3 = L.btldOffset := by
  have := L.two_blocks
  unfold codeSizeOffset codeSizeBytes
  omega

theorem mem_ge : 128 ≤ L.mem := Nat.le_of_lt (Nat.lt_of_le_of_lt L.two_blocks L.btld_lt)

theorem signatOffset_eq : L.signatOffset + 67 = L.btldOffset := by
  have := L.codeSizeOffset_eq
  have := L.two_blocks
  unfold signatOffset signatSize
  omega

theorem signatOffset_ge : 61 ≤ L.signatOffset := by
  have := L.signatOffset_eq
  have := L.two_blocks
  omega

theorem signatOffset_lt : L.signatOffset < 2 ^ 21 := by
  have := L.signatOffset_eq
  have := L.btld_lt
  have := L.mem_le
  omega

end Layout

/-! ## The reset vector -/

/-- The two words of the `GOTO` that `btld-patch.py` puts at address 0, low byte first. -/
def gotoInstr (btldOffset : Nat) : Nat → UInt8
  | 0 => UInt8.ofNat (btldOffset >>> 1)
  | 1 => 0xEF
  | 2 => UInt8.ofNat ((btldOffset >>> 1) >>> 8)
  | 3 => UInt8.ofNat (((btldOffset >>> 1) >>> 16) % 16) ||| 0xF0
  | _ => 0

/-- The `GOTO` to `off` is the instruction at `pc`. -/
def HoldsGoto (f : Nat → UInt8) (pc off : Nat) : Prop := ∀ k < 4, f (pc + k) = gotoInstr off k

/-- Execution from `pc` comes to the `GOTO` to `off` through erased words only, which are `NOP`s. -/
inductive ReachesGoto (f : Nat → UInt8) (off : Nat) : Nat → Prop
  | goto {pc : Nat} : HoldsGoto f pc off → ReachesGoto f off pc
  | nop {pc : Nat} : f pc = blank → f (pc + 1) = blank → ReachesGoto f off (pc + 2) →
    ReachesGoto f off pc

/-- The address an instruction at `pc` jumps to, if it is a `GOTO`. -/
def gotoTarget (f : Nat → UInt8) (pc : Nat) : Option Nat :=
  if f (pc + 1) = 0xEF ∧ (f (pc + 3)).toNat / 16 = 15 then
    some (2 * ((f pc).toNat + (f (pc + 2)).toNat * 256 + (f (pc + 3)).toNat % 16 * 65536))
  else none

/-- The bytes of `btld-patch.py` are a `GOTO` to the offset they are made for. -/
theorem HoldsGoto.target {f : Nat → UInt8} {pc off : Nat} (h : HoldsGoto f pc off)
    (heven : off % 2 = 0) (hoff : off < 2 ^ 21) : gotoTarget f pc = some off := by
  have h0 : f pc = gotoInstr off 0 := h 0 (by decide)
  have h1 : f (pc + 1) = gotoInstr off 1 := h 1 (by decide)
  have h2 : f (pc + 2) = gotoInstr off 2 := h 2 (by decide)
  have h3 : f (pc + 3) = gotoInstr off 3 := h 3 (by decide)
  have hor : ∀ x < 16, x ||| 240 = x + 240 := by decide
  have hhi : (gotoInstr off 3).toNat = off / 131072 % 16 + 240 := by
    simp only [gotoInstr, UInt8.toNat_or, UInt8.toNat_ofNat', Nat.shiftRight_eq_div_pow]
    rw [show (off / 2 ^ 1 / 2 ^ 16 % 16) % 2 ^ 8 = off / 131072 % 16 by omega]
    exact hor _ (Nat.mod_lt _ (by decide))
  have hlo : (gotoInstr off 0).toNat = off / 2 % 256 := by
    simp only [gotoInstr, UInt8.toNat_ofNat', Nat.shiftRight_eq_div_pow]
  have hmid : (gotoInstr off 2).toNat = off / 512 % 256 := by
    simp only [gotoInstr, UInt8.toNat_ofNat', Nat.shiftRight_eq_div_pow]
    omega
  unfold gotoTarget
  rw [h0, h1, h2, h3, hhi, hlo, hmid, if_pos ⟨rfl, by omega⟩, Option.some.injEq]
  omega

/-- A `GOTO` is not erased flash. -/
theorem HoldsGoto.ne_blank {f : Nat → UInt8} {pc off : Nat} (h : HoldsGoto f pc off) :
    f (pc + 1) ≠ blank := by
  rw [h 1 (by decide)]
  exact (by decide : (0xEF : UInt8) ≠ blank)

theorem HoldsGoto.iff_zero {f : Nat → UInt8} {off : Nat} :
    HoldsGoto f 0 off ↔ ∀ k < 4, f k = gotoInstr off k := by
  simp only [HoldsGoto, Nat.zero_add]

/-- Erased flash with the reset vector of the repository's build. -/
def vectorFlash (a : Nat) : UInt8 := if a < 4 then gotoInstr pic18f25k22.btldOffset a else blank

theorem vectorFlash_holds : HoldsGoto vectorFlash 0 pic18f25k22.btldOffset :=
  HoldsGoto.iff_zero.mpr fun _ hk => if_pos hk

end Pic18Boot
