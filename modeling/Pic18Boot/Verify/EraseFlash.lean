import Pic18Boot.Model.Layout
import Pic18Boot.Verify.WriteFlash

/-! # The operations of `erase_flash`

Every function of `flash.c` is a list of controller operations (`Nvm.Ran`); a power cut leaves the
flash that a prefix of the list produces. `erase_flash` performs `eraseOps` (`eraseFlash_ran`). -/

namespace Pic18Boot
open NorFlash

/-- From `s` to `s'` the controller performed the operations `l`. -/
structure Nvm.Ran (s s' : Nvm) (l : List (Op Nat UInt8)) : Prop where
  ops : s'.ops = s.ops ++ l
  flash : s'.flash = replay blank l s.flash

/-- The operations performed from `s` on, in a later state `s'`. -/
def Nvm.since (s s' : Nvm) : List (Op Nat UInt8) := s'.ops.drop s.ops.length

namespace Nvm.Ran

variable {s s' s'' : Nvm} {l l' : List (Op Nat UInt8)} {mem : Nat}

theorem refl : s.Ran s [] := ⟨(List.append_nil _).symm, rfl⟩

theorem trans (h : s.Ran s' l) (h' : s'.Ran s'' l') : s.Ran s'' (l ++ l') :=
  ⟨by rw [h'.ops, h.ops, List.append_assoc], by rw [h'.flash, h.flash, replay_append]⟩

theorem of_eq (hops : s'.ops = s.ops) (hflash : s'.flash = s.flash) : s.Ran s' [] :=
  ⟨by rw [hops, List.append_nil], hflash⟩

theorem since (h : s.Ran s' l) : s.since s' = l := by
  rw [Nvm.since, h.ops, List.drop_left]

theorem perform {o : Op Nat UInt8} : s.Ran (s.perform o) [o] := ⟨rfl, rfl⟩

end Nvm.Ran

variable {mem addr n i : Nat} {buf : Nat → UInt8} {s : Nvm} {st : Nat × Nvm}

/-! ## `write_flash` inside a block -/

/-- The holding registers after the first `i` bytes at `addr`. -/
def loaded (addr : Nat) (buf : Nat → UInt8) (i j : Nat) : UInt8 :=
  if addr % 64 ≤ j ∧ j < addr % 64 + i then buf (j - addr % 64) else blank

/-- What the loop of `write_flash` maintains while it stays in one block. -/
structure BlockInv (mem addr : Nat) (buf : Nat → UInt8) (n : Nat) (s : Nvm) (i : Nat)
    (st : Nat × Nvm) : Prop where
  addrMod : st.1 % 64 = (addr + i) % 64
  ptr : st.2.tblptr = (addr + i) % 2 ^ 22
  loading : i < n → s.Ran st.2 [] ∧ st.2.holding = loaded addr buf i
  committed : 0 < i → i = n → s.Ran st.2 [programBlock mem (addr % 2 ^ 22 / 64) (loaded addr buf n)]

theorem loaded_succ : Function.update (loaded addr buf i) (addr % 64 + i) (buf i) =
    loaded addr buf (i + 1) := by
  funext j
  unfold loaded
  by_cases h : j = addr % 64 + i
  · subst h
    rw [Function.update_self, if_pos ⟨by omega, by omega⟩, Nat.add_sub_cancel_left]
  · rw [Function.update_of_ne h]
    exact if_congr (by omega) rfl rfl

theorem BlockInv.step (hb : addr % 64 + n ≤ 64) (hi : i < n) (H : BlockInv mem addr buf n s i st) :
    BlockInv mem addr buf n s (i + 1) (writeFlashByte mem buf n i st) := by
  obtain ⟨c, s'⟩ := st
  obtain ⟨haddr, hptr, hload, -⟩ := H
  obtain ⟨hran, hhold⟩ := hload hi
  simp only at haddr hptr hran hhold
  have hregs : Function.update s'.holding (s'.tblptr % 64) (buf i) = loaded addr buf (i + 1) := by
    rw [hhold, show s'.tblptr % 64 = addr % 64 + i by omega, loaded_succ]
  unfold writeFlashByte
  simp only [flashBlockSiz]
  split
  · next hc =>
    refine ⟨by omega, ?_, fun hlt => absurd hlt (by omega), fun _ hn => ?_⟩
    · simp only [Nvm.tblptr_tblrdPostInc, Nvm.tblptr_startProgram, Nvm.tblptr_tblwt]
      change (s'.tblptr + 1) % 2 ^ 22 = _
      omega
    · have hop : programBlock mem (s'.tblptr / 64)
          (Function.update s'.holding (s'.tblptr % 64) (buf i)) =
            programBlock mem (addr % 2 ^ 22 / 64) (loaded addr buf n) := by
        rw [hregs, hn, show s'.tblptr / 64 = addr % 2 ^ 22 / 64 by omega]
      rw [← hop]
      exact hran.trans ⟨by simp only [Nvm.ops_tblrdPostInc]; rfl,
        by simp only [Nvm.flash_tblrdPostInc]; rfl⟩
  · next hc =>
    refine ⟨by omega, ?_, fun _ => ⟨hran.trans (.of_eq rfl rfl), ?_⟩,
      fun _ hn => absurd hn (by omega)⟩
    · simp only [Nvm.tblptr_tblwtPostInc]
      change (s'.tblptr + 1) % 2 ^ 22 = _
      omega
    · exact hregs

/-- Bytes that stay in one block are programmed by one operation. -/
theorem writeFlash_ran (hs : s.Idle) (hn : 0 < n) (hb : addr % 64 + n ≤ 64) :
    s.Ran (writeFlash mem addr buf n s)
      [programBlock mem (addr % 2 ^ 22 / 64) (loaded addr buf n)] := by
  have h0 : BlockInv mem addr buf n s 0 (addr, loadTblptr addr s) :=
    ⟨rfl, tblptr_loadTblptr, fun _ => ⟨.of_eq rfl rfl, ?_⟩, fun h => absurd h (by omega)⟩
  · have H := Nat.fold_rule (BlockInv mem addr buf n s) h0
      (f := fun i _ st => writeFlashByte mem buf n i st) fun _ hi _ H => H.step hb hi
    have hr := H.committed hn rfl
    exact ⟨hr.ops, hr.flash⟩
  · rw [holding_loadTblptr, hs]
    funext j
    exact (if_neg (by omega)).symm

/-! ## `erase_flash` -/

/-- The holding registers with which `erase_flash` programs the saved bytes `g`. -/
def savedRegs (g : Nat → UInt8) (j : Nat) : UInt8 := if j < 4 then g j else blank

/-- The operations of `erase_flash` over `cnt` blocks, when flash starts with the bytes `g`: the
backup goes to block 1, block 0 is restored as soon as it is erased. -/
def eraseOps (mem : Nat) (g : Nat → UInt8) : Nat → List (Op Nat UInt8)
  | 0 => [eraseBlock mem 1, programBlock mem 1 (savedRegs g)]
  | cnt + 1 =>
    [eraseBlock mem 1, programBlock mem 1 (savedRegs g),
      eraseBlock mem 0, programBlock mem 0 (savedRegs g)] ++
    (List.range cnt).map fun blk => eraseBlock mem (blk + 1)

variable {g : Nat → UInt8} {blk cnt btldAddr : Nat}

theorem flashEraseBlk_ran (hblk : blk < 2 ^ 16) :
    s.Ran (flashEraseBlk mem blk s) [eraseBlock mem blk] := by
  have hptr : (loadTblptr (blk * flashBlockSiz % 2 ^ 24) s).tblptr / 64 = blk := by
    rw [tblptr_loadTblptr, flashBlockSiz]
    omega
  change s.Ran (restoreTablePointers (saveTablePointers s)
    ((loadTblptr (blk * flashBlockSiz % 2 ^ 24) s).startErase mem)) _
  rw [Nvm.startErase, hptr]
  exact ⟨rfl, rfl⟩

theorem flashEraseBlk_idle (hs : s.Idle) : (flashEraseBlk mem blk s).Idle := hs

@[simp] theorem saveTablePointers_flashEraseBlk :
    saveTablePointers (flashEraseBlk mem blk s) = saveTablePointers s := rfl

theorem eraseOps_succ : eraseOps mem g (cnt + 1) = eraseOps mem g cnt ++
    if cnt = 0 then [eraseBlock mem 0, programBlock mem 0 (savedRegs g)]
    else [eraseBlock mem cnt] := by
  cases cnt with
  | zero => rfl
  | succ cnt =>
    rw [if_neg (Nat.succ_ne_zero cnt)]
    simp [eraseOps, List.range_succ]

/-- The saved bytes are programmed by one operation at the start of a block. -/
theorem writeFlash_saved_ran {start : Nat} (hs : s.Idle) (hstart : start % 64 = 0)
    (hlt : start < 2 ^ 22) (hg : ∀ k < 4, buf k = g k) :
    s.Ran (writeFlash mem start buf 4 s) [programBlock mem (start / 64) (savedRegs g)] := by
  have H : s.Ran (writeFlash mem start buf 4 s)
      [programBlock mem (start % 2 ^ 22 / 64) (loaded start buf 4)] :=
    writeFlash_ran hs (by decide) (by omega)
  have hregs : loaded start buf 4 = savedRegs g := by
    funext j
    unfold loaded savedRegs
    by_cases hj : j < 4
    · rw [if_pos (by omega), if_pos hj, hstart, Nat.sub_zero, hg j hj]
    · rw [if_neg (by omega), if_neg hj]
  rwa [hregs, Nat.mod_eq_of_lt hlt] at H

theorem eraseFlashBlk_ran (hs : s.Idle) (hblk : blk < 2 ^ 16) (hg : ∀ k < 4, buf k = g k) :
    s.Ran (eraseFlashBlk mem buf blk s)
      (if blk = 0 then [eraseBlock mem 0, programBlock mem 0 (savedRegs g)]
        else [eraseBlock mem blk]) := by
  have herase : s.Ran (flashEraseBlk mem blk s) [eraseBlock mem blk] := flashEraseBlk_ran hblk
  unfold eraseFlashBlk
  split
  · next h0 =>
    subst h0
    have hs' : (flashEraseBlk mem 0 s).Idle := flashEraseBlk_idle hs
    exact herase.trans (writeFlash_saved_ran hs' rfl (by decide) hg)
  · exact herase

theorem eraseFlashBlk_idle (hs : s.Idle) : (eraseFlashBlk mem buf blk s).Idle := by
  unfold eraseFlashBlk
  split
  · exact writeFlash_idle (flashEraseBlk_idle hs)
  · exact flashEraseBlk_idle hs

/-- **`erase_flash` performs `eraseOps`** with the bytes it finds at address 0. -/
theorem eraseFlash_ran (hs : s.Idle) :
    s.Ran (eraseFlash mem btldAddr s) (eraseOps mem s.flash (btldAddr / 64 % 2 ^ 16)) ∧
      (eraseFlash mem btldAddr s).Idle := by
  have hg : ∀ k < 4, (readFlash 0 (fun _ => 0) 4 s).1 k = s.flash k := by
    intro k hk
    rw [readFlash_buf]
    simp only [if_pos hk, Nat.zero_add]
    rw [Nat.mod_eq_of_lt (by omega)]
  have hread : s.Ran (readFlash 0 (fun _ => 0) 4 s).2 [] := .of_eq ops_readFlash flash_readFlash
  have hidle : (flashEraseBlk mem 1 (readFlash 0 (fun _ => 0) 4 s).2).Idle :=
    flashEraseBlk_idle (readFlash_idle hs)
  have hback : s.Ran (writeFlash mem flashBlockSiz (readFlash 0 (fun _ => 0) 4 s).1 4
      (flashEraseBlk mem 1 (readFlash 0 (fun _ => 0) 4 s).2)) (eraseOps mem s.flash 0) :=
    hread.trans <| (flashEraseBlk_ran (by decide)).trans <|
      writeFlash_saved_ran hidle rfl (by decide) hg
  refine Nat.fold_rule (fun i s' => s.Ran s' (eraseOps mem s.flash i) ∧ s'.Idle)
    ⟨hback, writeFlash_idle hidle⟩ fun i hi s' ⟨hran, hs'⟩ => ⟨?_, eraseFlashBlk_idle hs'⟩
  rw [eraseOps_succ]
  exact hran.trans (eraseFlashBlk_ran hs' (by omega) hg)

end Pic18Boot
