import Pic18Boot.Verify.EraseFlash

/-! # `erase_flash`, complete and cut short

A complete erase leaves the `GOTO` and nothing else below the bootloader (`eraseFlash_effect`). One
erase is safe at every cut point (`eraseOps_take_reset`): the saved `GOTO` is at address 0, or block
0 is erased and the backup is where the `NOP`s lead. The one cut that leaves the second state is
fatal to a restart, which reads the erased bytes as the `GOTO` to save (`eraseAttempt_low`). -/

namespace Pic18Boot
open NorFlash

variable {mem cnt cut btldAddr off a k : Nat} {f g : Nat → UInt8} {s : Nvm}

/-! ## Single operations -/

theorem eraseBlock_apply {blk : Nat} : (eraseBlock mem blk).apply blank f a =
    if a < mem ∧ a / 64 = blk then blank else f a := by
  simp [eraseBlock, Op.apply, erase]

theorem eraseBlock_spares {blk : Nat} (h : a / 64 ≠ blk) : (eraseBlock mem blk).Spares blank a := by
  simp [eraseBlock, Op.Spares, h]

theorem programBlock_spares {blk : Nat} {regs : Nat → UInt8} (h : a / 64 ≠ blk) :
    (programBlock mem blk regs).Spares blank a :=
  if_neg fun h' => h h'.2

/-- The saved bytes come back where a block was just erased. -/
theorem restored (hmem : 128 ≤ mem) (hk : k < 4) {blk : Nat} (hblk : blk < 2) :
    replay blank [eraseBlock mem blk, programBlock mem blk (savedRegs g)] f (blk * 64 + k) =
      g k := by
  have herased : (eraseBlock mem blk).apply blank f (blk * 64 + k) = blank := by
    rw [eraseBlock_apply, if_pos ⟨by omega, by omega⟩]
  rw [replay_cons, replay_cons, replay_nil]
  refine (program_blank herased).trans ?_
  rw [blockMask, if_pos ⟨by omega, by omega⟩, show (blk * 64 + k) % 64 = k by omega, savedRegs,
    if_pos hk]

/-- The operations of the loop after block 0 leave block 0 alone. -/
theorem eraseTail_spared (h : a < 64) (n : Nat) :
    replay blank (((List.range cnt).map fun blk => eraseBlock mem (blk + 1)).take n) f a = f a := by
  refine replay_spared fun o ho => ?_
  obtain ⟨blk, -, rfl⟩ := List.mem_map.mp (List.mem_of_mem_take ho)
  exact eraseBlock_spares (by omega)

/-- The backup leaves block 0 alone. -/
theorem eraseBackup_spared (h : a < 64) (n : Nat) :
    replay blank ([eraseBlock mem 1, programBlock mem 1 (savedRegs g)].take n) f a = f a := by
  refine replay_spared fun o ho => ?_
  have ho := List.mem_of_mem_take ho
  simp only [List.mem_cons, List.not_mem_nil, or_false] at ho
  rcases ho with rfl | rfl
  · exact eraseBlock_spares (by omega)
  · exact programBlock_spares (by omega)

/-- Every block the loop has passed is erased, but for the bytes restored in block 0. -/
theorem eraseOps_erased (hmem : 64 * cnt ≤ mem) (h4 : 4 ≤ a) (ha : a < 64 * cnt) :
    replay blank (eraseOps mem g cnt) f a = blank := by
  induction cnt with
  | zero => omega
  | succ cnt ih =>
    rw [eraseOps_succ, replay_append]
    split
    · next h0 =>
      rw [replay_cons, replay_cons, replay_nil]
      have herased : (eraseBlock mem 0).apply blank (replay blank (eraseOps mem g cnt) f) a =
          blank := by
        rw [eraseBlock_apply, if_pos ⟨by omega, by omega⟩]
      refine (program_blank herased).trans ?_
      rw [blockMask, if_pos ⟨by omega, by omega⟩, savedRegs, if_neg (by omega)]
    · rw [replay_cons, replay_nil, eraseBlock_apply]
      split
      · rfl
      · exact ih (by omega) (by omega)

/-- The blocks from the bootloader on are left alone. -/
theorem eraseOps_above (h2 : 2 ≤ cnt) (ha : 64 * cnt ≤ a) :
    replay blank (eraseOps mem g cnt) f a = f a := by
  obtain ⟨cnt, rfl⟩ := Nat.exists_eq_add_of_le' h2
  apply replay_spared
  intro o ho
  rcases List.mem_append.mp ho with ho | ho
  · simp only [List.mem_cons, List.not_mem_nil, or_false] at ho
    rcases ho with rfl | rfl | rfl | rfl
    · exact eraseBlock_spares (by omega)
    · exact programBlock_spares (by omega)
    · exact eraseBlock_spares (by omega)
    · exact programBlock_spares (by omega)
  · obtain ⟨blk, hblk, rfl⟩ := List.mem_map.mp ho
    have hlt := List.mem_range.mp hblk
    exact eraseBlock_spares (by omega)

/-! ## Every cut point of one erase -/

/-- Outside the window between the erase of block 0 and the program that follows, bytes 0..3 are
what they were. -/
theorem eraseOps_take_low (hmem : 128 ≤ mem) (hg : ∀ k < 4, f k = g k) (hcut : cut ≠ 3 ∨ cnt = 0)
    (hk : k < 4) : replay blank ((eraseOps mem g cnt).take cut) f k = g k := by
  match cnt, cut with
  | 0, n => exact (eraseBackup_spared (by omega) n).trans (hg k hk)
  | _ + 1, 0 => exact hg k hk
  | _ + 1, 1 => exact (eraseBackup_spared (g := g) (by omega) 1).trans (hg k hk)
  | _ + 1, 2 => exact (eraseBackup_spared (by omega) 2).trans (hg k hk)
  | _ + 1, 3 => simp at hcut
  | cnt + 1, n + 4 =>
    have hsplit : (eraseOps mem g (cnt + 1)).take (n + 4) =
        [eraseBlock mem 1, programBlock mem 1 (savedRegs g)] ++
          ([eraseBlock mem 0, programBlock mem 0 (savedRegs g)] ++
            ((List.range cnt).map fun blk => eraseBlock mem (blk + 1)).take n) := rfl
    rw [hsplit, replay_append, replay_append, eraseTail_spared (by omega)]
    have h := restored (g := g) (f := replay blank [eraseBlock mem 1,
      programBlock mem 1 (savedRegs g)] f) hmem hk (show 0 < 2 by decide)
    rwa [Nat.zero_mul, Nat.zero_add] at h

/-- In the window block 0 is erased and the backup stands at 64..67. -/
theorem eraseOps_take_three (hmem : 128 ≤ mem) :
    (∀ a < 64, replay blank ((eraseOps mem g (cnt + 1)).take 3) f a = blank) ∧
      ∀ k < 4, replay blank ((eraseOps mem g (cnt + 1)).take 3) f (64 + k) = g k := by
  have hsplit : (eraseOps mem g (cnt + 1)).take 3 =
      [eraseBlock mem 1, programBlock mem 1 (savedRegs g)] ++ [eraseBlock mem 0] := rfl
  rw [hsplit, replay_append]
  refine ⟨fun a ha => ?_, fun k hk => ?_⟩
  · rw [replay_cons, replay_nil, eraseBlock_apply, if_pos ⟨by omega, by omega⟩]
  · rw [replay_cons, replay_nil, eraseBlock_apply, if_neg (by omega)]
    exact restored hmem hk (show 1 < 2 by decide)

/-- Erased words up to an address run into what is there. -/
theorem ReachesGoto.of_blank {n : Nat} (hblank : ∀ a < 2 * n, f a = blank)
    (hgoto : HoldsGoto f (2 * n) off) : ReachesGoto f off 0 := by
  suffices H : ∀ m ≤ n, ReachesGoto f off (2 * (n - m)) by simpa using H n (Nat.le_refl n)
  intro m hm
  induction m with
  | zero => exact .goto hgoto
  | succ m ih =>
    refine .nop (hblank _ (by omega)) (hblank _ (by omega)) ?_
    have := ih (by omega)
    rwa [show 2 * (n - m) = 2 * (n - (m + 1)) + 2 by omega] at this

/-- A state from which a reset comes to the `GOTO` to `off` before any other instruction. -/
def ResetSafe (f : Nat → UInt8) (off : Nat) : Prop :=
  HoldsGoto f 0 off ∨ (∀ a < 64, f a = blank) ∧ HoldsGoto f 64 off

theorem ResetSafe.reaches (h : ResetSafe f off) : ReachesGoto f off 0 := by
  rcases h with h | ⟨hblank, h⟩
  · exact .goto h
  · exact .of_blank (n := 32) hblank h

theorem eraseOps_take_reset (hmem : 128 ≤ mem) (hf : HoldsGoto f 0 off) :
    ResetSafe (replay blank ((eraseOps mem f cnt).take cut) f) off := by
  have hg := HoldsGoto.iff_zero.mp hf
  by_cases hcut : cut ≠ 3 ∨ cnt = 0
  · refine .inl (HoldsGoto.iff_zero.mpr fun k hk => ?_)
    rw [eraseOps_take_low hmem (fun _ _ => rfl) hcut hk, hg k hk]
  · obtain ⟨rfl, hcnt⟩ := not_or.mp hcut |>.imp Decidable.not_not.mp id
    obtain ⟨cnt, rfl⟩ := Nat.exists_eq_succ_of_ne_zero hcnt
    obtain ⟨hblank, hbackup⟩ := eraseOps_take_three (g := f) (f := f) hmem
    exact .inr ⟨hblank, fun k hk => by rw [hbackup k hk, hg k hk]⟩

/-- **Crash safety of one erase.** After every prefix of the operations `erase_flash` performs, the
`GOTO` that stood at address 0 stands there still, or the words before its backup are erased. -/
theorem eraseFlash_crash_safe (hmem : 128 ≤ mem) (hs : s.Idle) (hf : HoldsGoto s.flash 0 off)
    (btldAddr cut : Nat) :
    let f := replay blank ((s.since (eraseFlash mem btldAddr s)).take cut) s.flash
    ReachesGoto f off 0 ∧ (HoldsGoto f 0 off ∨ (∀ a < 64, f a = blank) ∧ HoldsGoto f 64 off) := by
  intro f
  have hsafe : ResetSafe f off := by
    simp only [f, (eraseFlash_ran hs).1.since]
    exact eraseOps_take_reset hmem hf
  exact ⟨hsafe.reaches, hsafe⟩

theorem vectorFlash_crash_safe :
    let f := replay blank ((Nvm.since (.powerUp vectorFlash)
      (eraseFlash 0x8000 0x1000 (.powerUp vectorFlash))).take 3) vectorFlash
    ReachesGoto f 0x1000 0 ∧
      (HoldsGoto f 0 0x1000 ∨ (∀ a < 64, f a = blank) ∧ HoldsGoto f 64 0x1000) :=
  eraseFlash_crash_safe (by decide) (Nvm.idle_powerUp vectorFlash) vectorFlash_holds 0x1000 3

/-! ## A complete erase -/

/-- An erase that completes keeps bytes 0..3. -/
theorem eraseFlash_low (hmem : 128 ≤ mem) (hs : s.Idle) (hk : k < 4) :
    (eraseFlash mem btldAddr s).flash k = s.flash k := by
  have h : replay blank ((eraseOps mem s.flash (btldAddr / 64 % 2 ^ 16)).take
      ((eraseOps mem s.flash (btldAddr / 64 % 2 ^ 16)).length + 4)) s.flash k = s.flash k :=
    eraseOps_take_low hmem (fun _ _ => rfl) (.inl (by omega)) hk
  rwa [List.take_of_length_le (Nat.le_add_right _ 4), ← (eraseFlash_ran hs).1.flash] at h

/-- After a complete erase user flash and the metadata are erased. -/
theorem eraseFlash_erased (hal : btldAddr % 64 = 0) (hle : btldAddr ≤ mem) (hmem : mem ≤ 2 ^ 21)
    (hs : s.Idle) (h4 : 4 ≤ a) (ha : a < btldAddr) :
    (eraseFlash mem btldAddr s).flash a = blank := by
  rw [(eraseFlash_ran hs).1.flash]
  exact eraseOps_erased (by omega) h4 (by omega)

@[simp] theorem saveTablePointers_eraseFlash :
    saveTablePointers (eraseFlash mem btldAddr s) = saveTablePointers s := by
  unfold eraseFlash
  apply Nat.fold_rule fun _ s' => saveTablePointers s' = saveTablePointers s
  · rfl
  · intro blk _ s' h
    unfold eraseFlashBlk
    split
    · exact h
    · exact h

/-- **A completed erase** keeps bytes 0..3, erases the rest below `btld_addr`, leaves what is above
it alone and restores the table pointer. -/
theorem eraseFlash_effect (mem btldAddr : Nat) (s : Nvm) (hal : btldAddr % 64 = 0)
    (hge : 128 ≤ btldAddr) (hle : btldAddr ≤ mem) (hmem : mem ≤ 2 ^ 21) (hs : s.Idle) :
    let r := eraseFlash mem btldAddr s
    (∀ a < 4, r.flash a = s.flash a) ∧ (∀ a, 4 ≤ a → a < btldAddr → r.flash a = blank) ∧
      (∀ a, btldAddr ≤ a → r.flash a = s.flash a) ∧
      saveTablePointers r = saveTablePointers s := by
  intro r
  refine ⟨fun a ha => ?_, fun a h4 ha => ?_, fun a ha => ?_, saveTablePointers_eraseFlash⟩
  · exact eraseFlash_low (by omega) hs ha
  · exact eraseFlash_erased hal hle hmem hs h4 ha
  · rw [(eraseFlash_ran hs).1.flash]
    exact eraseOps_above (by omega) (by omega)

/-- The whole program memory, the backup of the `GOTO` included. -/
theorem zeroFlash_erased :
    (eraseFlash 0x8000 0x8000 (.powerUp fun _ => 0)).flash 64 = blank :=
  (eraseFlash_effect 0x8000 0x8000 (.powerUp fun _ => 0) rfl (by decide) (by decide) (by decide)
    (Nvm.idle_powerUp _)).2.1 64 (by decide) (by decide)

/-! ## Restarts -/

/-- The flash an attempt at `erase_flash` leaves when power fails after `cut` operations. -/
def eraseAttempt (mem btldAddr : Nat) (f : Nat → UInt8) (cut : Nat) : Nat → UInt8 :=
  replay blank (((Nvm.powerUp f).since (eraseFlash mem btldAddr (.powerUp f))).take cut) f

/-- The flash an attempt leaves that runs to completion. -/
def eraseComplete (mem btldAddr : Nat) (f : Nat → UInt8) : Nat → UInt8 :=
  (eraseFlash mem btldAddr (.powerUp f)).flash

theorem eraseAttempt_eq : eraseAttempt mem btldAddr f cut =
    replay blank ((eraseOps mem f (btldAddr / 64 % 2 ^ 16)).take cut) f := by
  rw [eraseAttempt, (eraseFlash_ran (Nvm.idle_powerUp f)).1.since]
  rfl

section Restart
variable (L : Layout)

theorem Layout.blockCount_ne_zero : L.btldOffset / 64 % 2 ^ 16 ≠ 0 := by
  have := L.two_blocks
  have := L.btld_lt
  have := L.mem_le
  omega

/-- An attempt leaves bytes 0..3 as they were, except that the cut after the erase of block 0 leaves
them erased. -/
theorem eraseAttempt_low (hk : k < 4) : eraseAttempt L.mem L.btldOffset f cut k =
    if cut = 3 then blank else f k := by
  rw [eraseAttempt_eq]
  split
  · next h =>
    subst h
    obtain ⟨cnt, hcnt⟩ := Nat.exists_eq_succ_of_ne_zero L.blockCount_ne_zero
    rw [hcnt]
    exact (eraseOps_take_three L.mem_ge).1 k (by omega)
  · next h => exact eraseOps_take_low L.mem_ge (fun _ _ => rfl) (.inl h) hk

theorem eraseComplete_low (hk : k < 4) : eraseComplete L.mem L.btldOffset f k = f k :=
  eraseFlash_low L.mem_ge (Nvm.idle_powerUp f) hk

/-- Once the window is hit bytes 0..3 stay erased through every later attempt. -/
theorem eraseAttempts_low (cuts : List Nat) (hk : k < 4) :
    cuts.foldl (eraseAttempt L.mem L.btldOffset) f k = if 3 ∈ cuts then blank else f k := by
  induction cuts generalizing f with
  | nil => rfl
  | cons cut cuts ih =>
    rw [List.foldl_cons, ih, eraseAttempt_low L hk]
    by_cases hcut : cut = 3
    · subst hcut
      simp
    · simp [hcut, Ne.symm hcut]

/-- **Recovery after power loss**, exactly: the erase that completes leaves the original `GOTO` in
bytes 0..3 if and only if no earlier attempt was cut between the erase of block 0 (its third
operation) and the program operation that follows. -/
theorem erase_recovers_iff (hf : HoldsGoto f 0 L.btldOffset) (cuts : List Nat) :
    HoldsGoto (eraseComplete L.mem L.btldOffset
      (cuts.foldl (eraseAttempt L.mem L.btldOffset) f)) 0 L.btldOffset ↔ 3 ∉ cuts := by
  have hlow : ∀ k < 4, eraseComplete L.mem L.btldOffset
      (cuts.foldl (eraseAttempt L.mem L.btldOffset) f) k = if 3 ∈ cuts then blank else f k :=
    fun k hk => by rw [eraseComplete_low L hk, eraseAttempts_low L cuts hk]
  constructor
  · intro h hmem
    refine h.ne_blank ?_
    rw [Nat.zero_add, hlow 1 (by decide), if_pos hmem]
  · intro h
    refine HoldsGoto.iff_zero.mpr fun k hk => ?_
    rw [hlow k hk, if_neg h, HoldsGoto.iff_zero.mp hf k hk]

theorem vectorFlash_recovers : HoldsGoto (eraseComplete 0x8000 0x1000
    ([0, 2, 4].foldl (eraseAttempt 0x8000 0x1000) vectorFlash)) 0 0x1000 :=
  (erase_recovers_iff pic18f25k22 vectorFlash_holds [0, 2, 4]).mpr (by decide)

/-- One attempt cut after its third operation loses the reset vector for good. -/
theorem vectorFlash_lost : HoldsGoto vectorFlash 0 0x1000 ∧
    ¬ HoldsGoto (eraseComplete 0x8000 0x1000
      ([3].foldl (eraseAttempt 0x8000 0x1000) vectorFlash)) 0 0x1000 := by
  refine ⟨vectorFlash_holds, fun h => h.ne_blank ?_⟩
  exact (eraseComplete_low pic18f25k22 (by decide)).trans <|
    (eraseAttempts_low pic18f25k22 [3] (by decide)).trans (if_pos (by decide))

end Restart

end Pic18Boot
