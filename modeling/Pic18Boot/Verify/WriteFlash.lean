import Pic18Boot.Model.Flash

/-! # `write_flash` and `read_flash` without the table pointer

`write_flash` programs one mask (`writeFlash_flash`): the mask of `count` bytes at consecutive
values of the 22-bit table pointer, which wraps (`writeMask`). `read_flash` returns the bytes at
those values (`readFlash_buf`). Both restore the table pointer. -/

namespace Pic18Boot
open NorFlash

/-- The mask that programs the byte `v` at address `p`. -/
def cellMask (mem p : Nat) (v : UInt8) (a : Nat) : UInt8 := if a < mem ∧ a = p then v else blank

/-- The mask of the first `n` bytes of `buf`, at the table pointer's values from `addr` on. -/
def writeMask (mem addr : Nat) (buf : Nat → UInt8) : Nat → Nat → UInt8
  | 0 => fun _ => blank
  | n + 1 => program (writeMask mem addr buf n) (cellMask mem ((addr + n) % 2 ^ 22) (buf n))

variable {mem addr n : Nat} {buf : Nat → UInt8} {s : Nvm} {a k : Nat}

theorem cellMask_spared {p : Nat} {v : UInt8} (h : a ≠ p) : cellMask mem p v a = blank :=
  if_neg fun h' => h h'.2

theorem cellMask_above {p : Nat} {v : UInt8} (h : mem ≤ a) : cellMask mem p v a = blank :=
  if_neg fun h' => Nat.not_lt.mpr h h'.1

theorem writeMask_spared (h : ∀ k < n, (addr + k) % 2 ^ 22 ≠ a) :
    writeMask mem addr buf n a = blank := by
  induction n with
  | zero => rfl
  | succ n ih =>
    rw [writeMask, program_spared (cellMask_spared (h n (Nat.lt_succ_self n)).symm)]
    exact ih fun k hk => h k (Nat.lt_succ_of_lt hk)

/-- Addresses above program memory are not written. -/
theorem writeMask_above (h : mem ≤ a) : writeMask mem addr buf n a = blank := by
  induction n with
  | zero => rfl
  | succ n ih =>
    rw [writeMask, program_spared (cellMask_above h)]
    exact ih

/-- Below `2 ^ 22` bytes no address is written twice. -/
theorem writeMask_hit (hn : n ≤ 2 ^ 22) (hk : k < n) (hm : (addr + k) % 2 ^ 22 < mem) :
    writeMask mem addr buf n ((addr + k) % 2 ^ 22) = buf k := by
  induction n with
  | zero => omega
  | succ n ih =>
    rw [writeMask]
    by_cases hkn : k = n
    · subst hkn
      rw [program_blank (writeMask_spared fun j hj => by omega)]
      exact if_pos ⟨hm, rfl⟩
    · rw [program_spared (cellMask_spared (by omega))]
      exact ih (by omega) (by omega)

/-- Where nothing wraps the mask is the buffer laid at `addr`. -/
theorem writeMask_eq (h : addr + n ≤ mem) (hmem : mem ≤ 2 ^ 22) :
    writeMask mem addr buf n a = if addr ≤ a ∧ a < addr + n then buf (a - addr) else blank := by
  split
  · next ha =>
    have h1 : (addr + (a - addr)) % 2 ^ 22 = a := by omega
    have h2 : writeMask mem addr buf n ((addr + (a - addr)) % 2 ^ 22) = buf (a - addr) :=
      writeMask_hit (by omega) (by omega) (by omega)
    rwa [h1] at h2
  · next ha => exact writeMask_spared fun k hk => by omega

theorem blockMask_idle {blk : Nat} : blockMask mem blk (fun _ => blank) = fun _ => blank := by
  funext a
  simp [blockMask]

/-- Loading a holding register adds one byte to what the next commit programs. -/
theorem blockMask_update {p : Nat} {regs : Nat → UInt8} {v : UInt8} (h : regs (p % 64) = blank) :
    blockMask mem (p / 64) (Function.update regs (p % 64) v) =
      program (blockMask mem (p / 64) regs) (cellMask mem p v) := by
  funext a
  by_cases hp : a = p
  · subst hp
    by_cases hm : a < mem
    · have hb : blockMask mem (a / 64) regs a = blank := by rw [blockMask, if_pos ⟨hm, rfl⟩, h]
      rw [program_blank hb]
      simp [blockMask, cellMask, hm]
    · simp [program_apply, blockMask, cellMask, hm]
  · rw [program_spared (cellMask_spared hp)]
    unfold blockMask
    split
    · next ha => rw [Function.update_of_ne (by omega)]
    · rfl

/-- What the loop of `write_flash` maintains: the flash together with the bytes waiting in the
holding registers is the old flash with the first `i` bytes programmed. -/
structure WriteInv (mem addr : Nat) (buf : Nat → UInt8) (n : Nat) (f : Nat → UInt8) (i : Nat)
    (st : Nat × Nvm) : Prop where
  addrMod : st.1 % 64 = (addr + i) % 64
  ptr : st.2.tblptr = (addr + i) % 2 ^ 22
  /-- The registers from the pointer on are not loaded yet. -/
  fresh : ∀ j < 64, (addr + i) % 64 ≤ j → st.2.holding j = blank
  pending : program st.2.flash (blockMask mem (st.2.tblptr / 64) st.2.holding) =
    program f (writeMask mem addr buf i)
  committed : i = n → st.2.Idle

theorem program_blank_mask (f : Nat → UInt8) : program f (fun _ => blank) = f :=
  funext fun _ => program_spared rfl

theorem WriteInv.init (hs : s.Idle) :
    WriteInv mem addr buf n s.flash 0 (addr, loadTblptr addr s) where
  addrMod := rfl
  ptr := tblptr_loadTblptr
  fresh j _ _ := by rw [holding_loadTblptr, hs]
  pending := by
    rw [holding_loadTblptr, hs, blockMask_idle]
    rfl
  committed _ := hs

/-- Before the last byte of a block the pointer stays in it. -/
theorem block_next {p : Nat} (hp : p < 2 ^ 22) (hmid : p % 64 ≠ 63) :
    (p + 1) % 2 ^ 22 / 64 = p / 64 := by omega

/-- One pass of the loop of `write_flash`, with or without a commit. -/
theorem WriteInv.step {f : Nat → UInt8} {i : Nat} {st : Nat × Nvm} (hi : i < n)
    (H : WriteInv mem addr buf n f i st) :
    WriteInv mem addr buf n f (i + 1) (writeFlashByte mem buf n i st) := by
  obtain ⟨c, s⟩ := st
  obtain ⟨haddr, hptr, hfresh, hpending, -⟩ := H
  simp only at haddr hptr hfresh hpending
  have hslot : s.holding (s.tblptr % 64) = blank := hfresh _ (by omega) (by omega)
  have hnext : (s.tblptr + 1) % 2 ^ 22 = (addr + (i + 1)) % 2 ^ 22 := by
    rw [hptr, Nat.mod_add_mod, Nat.add_assoc]
  have hoff : s.tblptr % 64 = (addr + i) % 64 := by
    rw [hptr]
    exact Nat.mod_mod_of_dvd _ (by decide)
  have hload : program s.flash (blockMask mem (s.tblptr / 64)
      (Function.update s.holding (s.tblptr % 64) (buf i))) =
        program f (writeMask mem addr buf (i + 1)) := by
    rw [blockMask_update hslot, ← program_program, hpending, program_program, hptr, writeMask]
  unfold writeFlashByte
  simp only [flashBlockSiz]
  split
  · next hc =>
    refine ⟨by omega, ?_, fun j _ _ => rfl, ?_, fun _ => rfl⟩
    · simp only [Nvm.tblptr_tblrdPostInc, Nvm.tblptr_startProgram, Nvm.tblptr_tblwt]
      exact hnext
    · simp only [Nvm.holding_tblrdPostInc, Nvm.holding_startProgram, Nvm.flash_tblrdPostInc,
        blockMask_idle, program_blank_mask]
      exact hload
  · next hc =>
    have hmid : s.tblptr % 64 ≠ 63 := by omega
    refine ⟨by omega, ?_, fun j hj hle => ?_, ?_, fun hn => absurd hn (by omega)⟩
    · simp only [Nvm.tblptr_tblwtPostInc]
      exact hnext
    · change Function.update s.holding (s.tblptr % 64) (buf i) j = blank
      rw [Function.update_of_ne (by omega)]
      exact hfresh j hj (by omega)
    · -- the next byte is in the same block, so the registers still stand for the same addresses
      simp only [Nvm.tblptr_tblwtPostInc, Nvm.holding_tblwtPostInc, Nvm.flash_tblwtPostInc]
      change program s.flash (blockMask mem ((s.tblptr + 1) % 2 ^ 22 / 64)
        (Function.update s.holding (s.tblptr % 64) (buf i))) = _
      rw [block_next (hptr ▸ Nat.mod_lt _ (by decide)) hmid]
      exact hload

theorem WriteInv.run (hs : s.Idle) :
    WriteInv mem addr buf n s.flash n
      (Nat.fold n (fun i _ st => writeFlashByte mem buf n i st) (addr, loadTblptr addr s)) :=
  Nat.fold_rule (WriteInv mem addr buf n s.flash) (.init hs) fun _ hi _ H => H.step hi

/-- **`write_flash` programs the mask of its bytes**, whatever the address and the count. -/
theorem writeFlash_flash (hs : s.Idle) :
    (writeFlash mem addr buf n s).flash = program s.flash (writeMask mem addr buf n) := by
  have H : WriteInv mem addr buf n s.flash n _ := .run hs
  have hp := H.pending
  rw [H.committed rfl, blockMask_idle, program_blank_mask] at hp
  exact hp

theorem writeFlash_idle (hs : s.Idle) : (writeFlash mem addr buf n s).Idle :=
  (WriteInv.run hs : WriteInv mem addr buf n s.flash n _).committed rfl

@[simp] theorem saveTablePointers_writeFlash :
    saveTablePointers (writeFlash mem addr buf n s) = saveTablePointers s := rfl

/-- **`write_flash` is a plain program of a byte range** where the range is in program memory. -/
theorem writeFlash_range (mem addr count : Nat) (buf : Nat → UInt8) (s : Nvm)
    (hfit : addr + count ≤ mem) (hmem : mem ≤ 2 ^ 22) (hs : s.Idle) :
    let r := writeFlash mem addr buf count s
    (∀ a, addr ≤ a → a < addr + count → r.flash a = s.flash a &&& buf (a - addr)) ∧
      (∀ a, a < addr ∨ addr + count ≤ a → r.flash a = s.flash a) ∧ r.Idle ∧
      saveTablePointers r = saveTablePointers s := by
  intro r
  have hflash : ∀ a, r.flash a = s.flash a &&&
      if addr ≤ a ∧ a < addr + count then buf (a - addr) else blank := by
    intro a
    rw [writeFlash_flash hs, program_apply, writeMask_eq hfit hmem]
  refine ⟨fun a hle hlt => ?_, fun a ha => ?_, writeFlash_idle hs, saveTablePointers_writeFlash⟩
  · rw [hflash, if_pos ⟨hle, hlt⟩]
  · rw [hflash, if_neg (by omega)]
    exact and_blank _

/-- Four bytes across a block boundary. -/
theorem writeFlash_straddle :
    (writeFlash 0x8000 0x7E (fun _ => 0x5A) 4 (.powerUp fun _ => 0x0F)).flash 0x80 = 0x0A :=
  (writeFlash_range 0x8000 0x7E 4 (fun _ => 0x5A) (.powerUp fun _ => 0x0F) (by decide) (by decide)
    (Nvm.idle_powerUp _)).1 0x80 (by decide) (by decide)

/-! ## `read_flash` -/

/-- What the loop of `read_flash` maintains. -/
structure ReadInv (addr : Nat) (buf : Nat → UInt8) (s : Nvm) (i : Nat)
    (st : (Nat → UInt8) × Nvm) : Prop where
  ptr : st.2.tblptr = (addr + i) % 2 ^ 22
  buf : st.1 = fun k => if k < i then s.flash ((addr + k) % 2 ^ 22) else buf k
  flash : st.2.flash = s.flash
  holding : st.2.holding = s.holding
  ops : st.2.ops = s.ops

theorem ReadInv.step {i : Nat} {st : (Nat → UInt8) × Nvm} (H : ReadInv addr buf s i st) :
    ReadInv addr buf s (i + 1)
      (Function.update st.1 i st.2.tblrdPostInc.tablat, st.2.tblrdPostInc) where
  ptr := by
    rw [Nvm.tblptr_tblrdPostInc, H.ptr]
    omega
  buf := by
    funext k
    dsimp only
    by_cases hk : k = i
    · subst hk
      rw [Function.update_self, Nvm.tablat_tblrdPostInc, H.flash, H.ptr, if_pos (by omega)]
    · rw [Function.update_of_ne hk, H.buf]
      exact if_congr (by omega) rfl rfl
  flash := by rw [Nvm.flash_tblrdPostInc, H.flash]
  holding := by rw [Nvm.holding_tblrdPostInc, H.holding]
  ops := by rw [Nvm.ops_tblrdPostInc, H.ops]

theorem ReadInv.run : ReadInv addr buf s n
    (Nat.fold n (fun i _ (st : (Nat → UInt8) × Nvm) =>
      (Function.update st.1 i st.2.tblrdPostInc.tablat, st.2.tblrdPostInc))
      (buf, loadTblptr addr s)) := by
  refine Nat.fold_rule (ReadInv addr buf s) ⟨tblptr_loadTblptr, ?_, rfl, rfl, rfl⟩
    fun _ _ _ H => H.step
  funext k
  exact (if_neg (by omega)).symm

/-- `read_flash` fills the first `n` bytes of the buffer and leaves the rest. -/
theorem readFlash_buf : (readFlash addr buf n s).1 =
    fun k => if k < n then s.flash ((addr + k) % 2 ^ 22) else buf k :=
  ReadInv.run.buf

@[simp] theorem flash_readFlash : (readFlash addr buf n s).2.flash = s.flash := ReadInv.run.flash

@[simp] theorem ops_readFlash : (readFlash addr buf n s).2.ops = s.ops := ReadInv.run.ops

theorem readFlash_idle (hs : s.Idle) : (readFlash addr buf n s).2.Idle :=
  ReadInv.run.holding.trans hs

@[simp] theorem saveTablePointers_readFlash :
    saveTablePointers (readFlash addr buf n s).2 = saveTablePointers s := rfl

end Pic18Boot
