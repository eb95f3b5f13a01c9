import Pic18Boot.Model.Boot
import Pic18Boot.Theory.Transition
import Pic18Boot.Verify.Flashing
import Pic18Boot.Verify.Group
import Pic18Boot.Verify.Sha256

/-! # Secure boot over any number of resets

What `main` makes the flash controller do (`main_ran`), and what it leaves of flash when power fails
at any point of it. From this, by induction over the life of a device: the bootloader's code is
never touched (`bootloader_kept`), and where the sessions spare the reset vector every reset comes
to the bootloader. -/

namespace Pic18Boot
open NorFlash

variable {L : Layout} {s s' s'' : Nvm} {d : Device} {t : Turn} {f g : Nat → UInt8} {a cut off : Nat}

section
variable {uECCVerify : List UInt8 → List UInt8 → List UInt8 → Bool}

/-! ## Operations -/

/-- From `s` to `s'` the controller only programmed. -/
def Nvm.Programs (s s' : Nvm) : Prop := ∃ masks : List (Nat → UInt8), s.Ran s' (masks.map .program)

namespace Nvm.Programs

theorem refl : s.Programs s := ⟨[], .refl⟩

theorem trans (h : s.Programs s') (h' : s'.Programs s'') : s.Programs s'' := by
  obtain ⟨masks, hran⟩ := h
  obtain ⟨masks', hran'⟩ := h'
  exact ⟨masks ++ masks', by rw [List.map_append]; exact hran.trans hran'⟩

end Nvm.Programs

theorem writeFlashByte_programs {mem n i : Nat} {buf : Nat → UInt8} {st : Nat × Nvm} :
    st.2.Programs (writeFlashByte mem buf n i st).2 := by
  unfold writeFlashByte
  dsimp only
  split
  · exact ⟨[_], by simp only [Nvm.ops_tblrdPostInc]; rfl,
      by simp only [Nvm.flash_tblrdPostInc]; rfl⟩
  · exact ⟨[], .of_eq rfl rfl⟩

theorem writeFlash_programs {mem addr n : Nat} {buf : Nat → UInt8} :
    s.Programs (writeFlash mem addr buf n s) := by
  have h0 : s.Programs (addr, loadTblptr addr s).2 := ⟨[], .of_eq rfl rfl⟩
  obtain ⟨masks, hran⟩ := Nat.fold_rule (n := n) (fun _ (st : Nat × Nvm) => s.Programs st.2) h0
    (f := fun i _ st => writeFlashByte mem buf n i st)
    fun _ _ _ h => h.trans writeFlashByte_programs
  exact ⟨masks, hran.ops, hran.flash⟩

theorem messageHandle_programs {op : UInt8} {data : Nat → UInt8} {len : Nat} :
    s.Programs (messageHandle L op data len s).2 := by
  unfold messageHandle
  split
  · split
    · exact .refl
    · exact writeFlash_programs
  split
  · split
    · exact .refl
    · exact writeFlash_programs
  split
  · split
    · exact .refl
    split
    · exact .refl
    unfold flashData
    dsimp only
    split
    · split
      · exact writeFlash_programs.trans writeFlash_programs
      · exact writeFlash_programs
    · exact writeFlash_programs
  split
  · split
    · exact .refl
    · exact .refl
  · exact .refl

theorem deviceFeed_programs (L : Layout) (d : Device) (rs : List Rcv) :
    d.nvm.Programs (deviceFeed L d rs).1.nvm := by
  induction rs generalizing d with
  | nil => exact .refl
  | cons b rs ih =>
    refine Nvm.Programs.trans ?_ (ih _)
    rcases fwReceiveByte_cases L d b with ⟨hnvm, -⟩ | ⟨rx, m, heq⟩
    · rw [hnvm]
      exact .refl
    · rw [heq, handleFrame_nvm]
      exact messageHandle_programs

theorem readFlash_ran {addr n : Nat} {buf : Nat → UInt8} : s.Ran (readFlash addr buf n s).2 [] :=
  .of_eq ops_readFlash flash_readFlash

section
variable {σ : Type*} {update : σ → (Nat → UInt8) → Nat → σ} {ctx : σ}

theorem signatureLoop_ran {flread : Nat → UInt8} {siz addr : Nat} :
    s.Ran (signatureLoop update ctx flread siz addr s).2 [] := by
  fun_induction signatureLoop update ctx flread siz addr s with
  | case1 ctx flread siz addr s _ r ih => exact readFlash_ran.trans ih
  | case2 ctx flread siz addr s _ _ r => exact readFlash_ran
  | case3 => exact .refl

theorem signatureHash_ran : s.Ran (signatureHash update ctx L s).2 [] := by
  -- not as a projection, for which the kernel would evaluate the loop
  suffices H : ∀ {s' : Nvm} {siz : Nat} {flread : Nat → UInt8}, s.Ran s' [] →
      ∀ x, x = signatureLoop update (update ctx flread 64) flread siz 64 s' → s.Ran x.2 [] by
    rw [signatureHash]
    exact H (readFlash_ran.trans readFlash_ran) _ rfl
  rintro s' siz flread hran x rfl
  exact hran.trans signatureLoop_ran

end

theorem signatureValid_ran : s.Ran (signatureValid uECCVerify L s).2 [] := by
  unfold signatureValid
  exact signatureHash_ran.trans readFlash_ran

variable (uECCVerify L t) in
/-- **What `main` makes the controller do**: nothing, or the erase and then programming. -/
theorem main_ran (hs : s.Idle) : if t.Expected then
      ∃ masks : List (Nat → UInt8), s.Ran (main uECCVerify L t s).nvm
        (eraseOps L.mem s.flash (L.btldOffset / 64 % 2 ^ 16) ++ masks.map .program)
    else s.Ran (main uECCVerify L t s).nvm [] := by
  unfold main
  split
  · obtain ⟨masks, hran⟩ := deviceFeed_programs L (sessionStart L s t.msg) t.rs
    exact ⟨masks, (eraseFlash_ran hs).1.trans hran⟩
  · have hran : s.Ran (signatureValid uECCVerify L s).2 [] := signatureValid_ran
    dsimp only
    split
    · exact hran
    · exact hran

/-! ## A loss of power -/

/-- The operations of `erase_flash` are on the blocks it passes and on block 1. -/
theorem mem_eraseOps {mem cnt : Nat} {o : Op Nat UInt8} (ho : o ∈ eraseOps mem g cnt) :
    ∃ blk < max 2 cnt, o = eraseBlock mem blk ∨ o = programBlock mem blk (savedRegs g) := by
  cases cnt with
  | zero =>
    simp only [eraseOps, List.mem_cons, List.not_mem_nil, or_false] at ho
    exact ⟨1, by decide, ho⟩
  | succ cnt =>
    rcases List.mem_append.mp ho with ho | ho
    · simp only [List.mem_cons, List.not_mem_nil, or_false] at ho
      rcases ho with rfl | rfl | rfl | rfl
      · exact ⟨1, by omega, .inl rfl⟩
      · exact ⟨1, by omega, .inr rfl⟩
      · exact ⟨0, by omega, .inl rfl⟩
      · exact ⟨0, by omega, .inr rfl⟩
    · obtain ⟨blk, hblk, rfl⟩ := List.mem_map.mp ho
      have := List.mem_range.mp hblk
      exact ⟨blk + 1, by omega, .inl rfl⟩

/-- Up to no cut does an erase touch the bootloader. -/
theorem eraseOps_take_above (ha : L.btldOffset ≤ a) (cut : Nat) :
    replay blank ((eraseOps L.mem g (L.btldOffset / 64 % 2 ^ 16)).take cut) f a = f a := by
  have := L.two_blocks
  have := L.aligned
  refine replay_spared fun o ho => ?_
  obtain ⟨blk, hblk, rfl | rfl⟩ := mem_eraseOps (List.mem_of_mem_take ho)
  · exact eraseBlock_spares (by omega)
  · exact programBlock_spares (by omega)

/-- **What a loss of power leaves of a session**: it comes during the erase, or among the operations
that program from there on. -/
theorem main_take (ht : t.Expected) (cut : Nat) :
    replay blank ((main uECCVerify L t (.powerUp f)).nvm.ops.take cut) f =
        replay blank ((eraseOps L.mem f (L.btldOffset / 64 % 2 ^ 16)).take cut) f ∨
      ∃ (masks : List (Nat → UInt8)) (n : Nat),
        replay blank ((main uECCVerify L t (.powerUp f)).nvm.ops.take cut) f =
          replay blank ((masks.map Op.program).take n)
            (sessionStart L (.powerUp f) t.msg).nvm.flash ∧
        (main uECCVerify L t (.powerUp f)).nvm.flash = replay blank (masks.map .program)
          (sessionStart L (.powerUp f) t.msg).nvm.flash := by
  have hran := main_ran L t uECCVerify (Nvm.idle_powerUp f)
  rw [if_pos ht] at hran
  obtain ⟨masks, hran⟩ := hran
  have hstart : (sessionStart L (.powerUp f) t.msg).nvm.flash =
      replay blank (eraseOps L.mem f (L.btldOffset / 64 % 2 ^ 16)) f :=
    (eraseFlash_ran (Nvm.idle_powerUp f)).1.flash
  have hops : (main uECCVerify L t (.powerUp f)).nvm.ops =
      eraseOps L.mem f (L.btldOffset / 64 % 2 ^ 16) ++ masks.map .program := hran.ops
  have hflash : (main uECCVerify L t (.powerUp f)).nvm.flash =
      replay blank (eraseOps L.mem f (L.btldOffset / 64 % 2 ^ 16) ++ masks.map .program) f :=
    hran.flash
  rw [hops, hflash, hstart]
  generalize eraseOps L.mem f (L.btldOffset / 64 % 2 ^ 16) = erase
  rw [List.take_append, replay_append, replay_append]
  rcases Nat.le_total cut erase.length with hle | hle
  · left
    rw [Nat.sub_eq_zero_of_le hle, List.take_zero, replay_nil]
  · right
    refine ⟨masks, cut - erase.length, ?_, rfl⟩
    rw [List.take_of_length_le hle]

/-- Without the handshake nothing is done to flash. -/
theorem main_take_quiet (ht : ¬ t.Expected) (cut : Nat) :
    replay blank ((main uECCVerify L t (.powerUp f)).nvm.ops.take cut) f = f := by
  have hran := main_ran L t uECCVerify (Nvm.idle_powerUp f)
  rw [if_neg ht] at hran
  have hops : (main uECCVerify L t (.powerUp f)).nvm.ops = [] := hran.ops
  rw [hops, List.take_nil, replay_nil]

variable (L t f uECCVerify) in
/-- A run to the end is one that is cut off after it. -/
theorem main_take_all (n : Nat) :
    (main uECCVerify L t (.powerUp f)).nvm.flash =
      replay blank ((main uECCVerify L t (.powerUp f)).nvm.ops.take
        ((main uECCVerify L t (.powerUp f)).nvm.ops.length + n)) f := by
  obtain ⟨l, hran⟩ : ∃ l, (Nvm.powerUp f).Ran (main uECCVerify L t (.powerUp f)).nvm l := by
    have hran := main_ran L t uECCVerify (Nvm.idle_powerUp f)
    split at hran
    · obtain ⟨masks, hran⟩ := hran
      exact ⟨_, hran⟩
    · exact ⟨_, hran⟩
  have hops : (main uECCVerify L t (.powerUp f)).nvm.ops = l := hran.ops
  rw [List.take_of_length_le (Nat.le_add_right ..), hops]
  exact hran.flash

/-! ## The bootloader's code -/

theorem messageHandle_above {op : UInt8} {data : Nat → UInt8} {len : Nat} (hs : s.Idle)
    (ha : L.btldOffset ≤ a) : (messageHandle L op data len s).2.flash a = s.flash a := by
  have hsig := L.signatOffset_eq
  have hcode := L.codeSizeOffset_eq
  obtain ⟨mask, hcase, hp⟩ := messageHandle_cases L op data len s
  rw [(hp hs).flash]
  refine program_spared (Decidable.byContradiction fun hne => ?_)
  rcases (hcase.touched hne).2 with ⟨-, h⟩ | ⟨-, h⟩ | ⟨-, h⟩
  all_goals omega

theorem deviceFeed_above {rs : List Rcv} (hs : d.nvm.Idle) (ha : L.btldOffset ≤ a) :
    (deviceFeed L d rs).1.nvm.flash a = d.nvm.flash a := by
  induction rs generalizing d with
  | nil => rfl
  | cons b rs ih =>
    refine (ih (fwReceiveByte_idle hs)).trans ?_
    rcases fwReceiveByte_cases L d b with ⟨hnvm, -⟩ | ⟨rx, m, heq⟩
    · rw [hnvm]
    · rw [heq, handleFrame_nvm]
      exact messageHandle_above hs ha

/-- Up to no cut does `main` touch the bootloader. -/
theorem main_take_above (ha : L.btldOffset ≤ a) (cut : Nat) :
    replay blank ((main uECCVerify L t (.powerUp f)).nvm.ops.take cut) f a = f a := by
  by_cases ht : t.Expected
  swap
  · rw [main_take_quiet ht]
  rcases main_take ht cut with hcut | ⟨masks, n, hcut, hend⟩
  · rw [hcut]
    exact eraseOps_take_above ha cut
  · have hidle := Nvm.idle_powerUp f
    have hstart : (sessionStart L (.powerUp f) t.msg).nvm.flash a = f a := by
      have hran : (eraseFlash L.mem L.btldOffset (.powerUp f)).flash = _ :=
        (eraseFlash_ran hidle).1.flash
      have hwhole := eraseOps_take_above (g := f) (f := f) ha
        (eraseOps L.mem f (L.btldOffset / 64 % 2 ^ 16)).length
      rw [List.take_length] at hwhole
      exact (congrFun hran a).trans hwhole
    have hkeep : (main uECCVerify L t (.powerUp f)).nvm.flash a =
        (sessionStart L (.powerUp f) t.msg).nvm.flash a := by
      rw [main, if_pos ht]
      exact deviceFeed_above (sessionStart_idle hidle) ha
    rw [hend] at hkeep
    rw [hcut, replay_program_take hkeep, hstart]

namespace Chip

/-- Everything a step can be. -/
inductive StepCase (uECCVerify : List UInt8 → List UInt8 → List UInt8 → Bool) (L : Layout) :
    Event → Chip → Chip → Prop
  | run {t : Turn} {f : Nat → UInt8} : Boots L f → StepCase uECCVerify L (.run t) ⟨f, .reset⟩
    ⟨(main uECCVerify L t (.powerUp f)).nvm.flash,
      if (main uECCVerify L t (.powerUp f)).ending = .userCode then .userCode else .reset⟩
  | powerLoss {t : Turn} {cut : Nat} {f : Nat → UInt8} : Boots L f →
    StepCase uECCVerify L (.powerLoss t cut) ⟨f, .reset⟩
    ⟨replay blank ((main uECCVerify L t (.powerUp f)).nvm.ops.take cut) f, .reset⟩
  | restart {f f' : Nat → UInt8} : StepCase uECCVerify L (.restart f') ⟨f, .userCode⟩ ⟨f', .reset⟩
  | stray {f f' : Nat → UInt8} : ¬ Boots L f →
    StepCase uECCVerify L (.stray f') ⟨f, .reset⟩ ⟨f', .astray⟩

variable {e : Event} {c c' c₀ : Chip}

theorem step_cases (h : step uECCVerify L e c = some c') : StepCase uECCVerify L e c c' := by
  obtain ⟨f, mode⟩ := c
  cases e <;> cases mode <;> try cases h
  case run.reset | powerLoss.reset =>
    rw [step] at h
    split at h
    · cases h
      constructor
      assumption
    · cases h
  case stray.reset =>
    rw [step] at h
    split at h
    · cases h
    · cases h
      exact .stray ‹_›
  case restart.userCode => exact .restart

/-- What runs besides the bootloader leaves its code alone. -/
def KeepsCode (L : Layout) : Event → Chip → Prop
  | .run _, _ | .powerLoss _ _, _ => True
  | .restart f, c | .stray f, c => ∀ a, L.btldOffset ≤ a → f a = c.flash a

theorem step_above (he : KeepsCode L e c) (h : step uECCVerify L e c = some c')
    (ha : L.btldOffset ≤ a) : c'.flash a = c.flash a := by
  cases step_cases h with
  | run _ =>
    rw [main_take_all L _ _ _ 0]
    exact main_take_above ha _
  | powerLoss _ => exact main_take_above ha _
  | restart | stray _ => exact he a ha

/-- **The bootloader's code is never touched**: in any life of a device, whatever is received, and
wherever power fails, unless other code does. -/
theorem bootloader_kept (uECCVerify : List UInt8 → List UInt8 → List UInt8 → Bool) (L : Layout)
    (c₀ c : Chip) (h : Transition.Reach (step uECCVerify L) (KeepsCode L) c₀ c) (a : Nat)
    (ha : L.btldOffset ≤ a) : c.flash a = c₀.flash a :=
  h.invariant (I := fun c => c.flash a = c₀.flash a) rfl fun _ _ _ ih he hstep =>
    (step_above he hstep ha).trans ih

end Chip

/-! ## Resets -/

theorem firstJump_goto {words pc target : Nat} (h : gotoTarget f pc = some target) :
    firstJump f (words + 1) pc = some target := by
  rw [firstJump, h]

/-- Erased words are `NOP`s. -/
theorem firstJump_blank {words pc n target : Nat}
    (hblank : ∀ a, pc ≤ a → a < pc + 2 * n → f a = blank)
    (h : gotoTarget f (pc + 2 * n) = some target) :
    firstJump f (n + (words + 1)) pc = some target := by
  induction n generalizing pc with
  | zero =>
    rw [Nat.zero_add]
    exact firstJump_goto h
  | succ n ih =>
    have hhigh : f (pc + 1) = blank := hblank _ (by omega) (by omega)
    have hnop : gotoTarget f pc = none := by
      rw [gotoTarget, hhigh]
      exact if_neg fun h => absurd h.1 (by decide)
    rw [Nat.succ_add, firstJump, hnop]
    dsimp only
    rw [if_pos (.inl (by rw [hhigh]; decide))]
    refine ih (fun a ha hlt => hblank a (by omega) (by omega)) ?_
    rwa [show pc + 2 + 2 * n = pc + 2 * (n + 1) by omega]

theorem HoldsGoto.jumps {pc : Nat} (h : HoldsGoto f pc L.btldOffset) :
    gotoTarget f pc = some L.btldOffset := by
  have := L.aligned
  have := L.btld_lt
  have := L.mem_le
  exact h.target (by omega) (by omega)

/-- From the state of every cut of an erase a reset comes to the bootloader. -/
theorem ResetSafe.boots (h : ResetSafe f L.btldOffset) : Boots L f := by
  have hmem := L.mem_ge
  have hbtld := L.two_blocks
  have hlt := L.btld_lt
  rcases h with h | ⟨hblank, h⟩
  · obtain ⟨n, hn⟩ := Nat.exists_eq_add_of_le' (show 1 ≤ L.mem / 2 by omega)
    rw [Boots, hn]
    exact firstJump_goto h.jumps
  · obtain ⟨n, hn⟩ := Nat.exists_eq_add_of_le (show 33 ≤ L.mem / 2 by omega)
    rw [Boots, hn, show 33 + n = 32 + (n + 1) by omega]
    exact firstJump_blank (n := 32) (fun a _ ha => hblank a (by omega)) h.jumps

/-! ## The life of a device -/

/-- Every message of the session spares the reset vector. -/
def SessionSpares (L : Layout) (t : Turn) (f : Nat → UInt8) : Prop :=
  ∀ x ∈ (deviceFeed L (sessionStart L (.powerUp f) t.msg) t.rs).2,
    Handles (fun m _ => SparesVector L m) x

/-- Block 0 does not stand erased. -/
def Restored (f : Nat → UInt8) : Prop := ∃ a < 64, f a ≠ blank

theorem ResetSafe.restored (h : ResetSafe f off) (hf : Restored f) : HoldsGoto f 0 off := by
  refine h.resolve_right fun ⟨hblank, _⟩ => ?_
  obtain ⟨a, ha, hne⟩ := hf
  exact hne (hblank a ha)

theorem ResetSafe.congr (h : ResetSafe f off) (hfg : ∀ a < 68, g a = f a) : ResetSafe g off := by
  refine h.imp (fun h k hk => ?_) fun ⟨hblank, h⟩ => ⟨fun a ha => ?_, fun k hk => ?_⟩
  · rw [hfg _ (by omega), h k hk]
  · rw [hfg a (by omega), hblank a ha]
  · rw [hfg _ (by omega), h k hk]

/-- A loss of power at any point of a run leaves a flash from which a reset comes to the
bootloader. -/
theorem main_take_safe (hf : ResetSafe f L.btldOffset)
    (hspare : t.Expected → Restored f ∧ SessionSpares L t f) (cut : Nat) :
    ResetSafe (replay blank ((main uECCVerify L t (.powerUp f)).nvm.ops.take cut) f)
      L.btldOffset := by
  by_cases ht : t.Expected
  swap
  · rwa [main_take_quiet ht]
  obtain ⟨hrest, hspare⟩ := hspare ht
  have hgoto := hf.restored hrest
  have hidle := Nvm.idle_powerUp f
  have hstart : HoldsGoto (sessionStart L (.powerUp f) t.msg).nvm.flash 0 L.btldOffset :=
    sessionStart_vector hidle hgoto
  have hend : HoldsGoto (main uECCVerify L t (.powerUp f)).nvm.flash 0 L.btldOffset := by
    rw [main, if_pos ht]
    exact (deviceFeed_vector (sessionStart_idle hidle) hstart).mpr hspare t.rs (List.prefix_refl _)
  rcases main_take ht cut with hcut | ⟨masks, n, hcut, hflash⟩
  · rw [hcut]
    exact eraseOps_take_reset L.mem_ge hgoto
  · refine .inl (HoldsGoto.iff_zero.mpr fun a ha => ?_)
    have hkeep := (HoldsGoto.iff_zero.mp hend a ha).trans (HoldsGoto.iff_zero.mp hstart a ha).symm
    rw [hflash] at hkeep
    rw [hcut, replay_program_take hkeep, HoldsGoto.iff_zero.mp hstart a ha]

theorem main_ending : (main uECCVerify L t s).ending = .userCode ↔
    ¬ t.Expected ∧ (signatureValid uECCVerify L s).1 = true := by
  unfold main
  split
  · next ht =>
    refine iff_of_false (fun h => ?_) fun h => h.1 ht
    dsimp only at h
    split at h <;> cases h
  · next ht =>
    dsimp only
    split
    · next hvalid => exact iff_of_true rfl ⟨ht, hvalid⟩
    · next hvalid => exact iff_of_false nofun fun h => hvalid h.2

namespace Chip

/-- A step of a well-behaved environment: a session is not begun while block 0 stands erased, its
messages spare the reset vector, and the user code leaves alone the bootloader and the bytes a reset
runs through. -/
def Benign (L : Layout) : Event → Chip → Prop
  | .run t, c | .powerLoss t _, c => t.Expected → Restored c.flash ∧ SessionSpares L t c.flash
  | .restart f, c => ∀ a, a < 68 ∨ L.btldOffset ≤ a → f a = c.flash a
  | .stray _, _ => True

/-- What holds of a device in every state of its life. -/
structure Secure (uECCVerify : List UInt8 → List UInt8 → List UInt8 → Bool) (L : Layout)
    (f₀ : Nat → UInt8) (c : Chip) : Prop where
  safe : ResetSafe c.flash L.btldOffset
  code : ∀ a, L.btldOffset ≤ a → c.flash a = f₀ a
  mode : c.mode ≠ .astray
  /-- What `main` has started is what it has checked. -/
  checked : c.mode = .userCode → (signatureValid uECCVerify L (.powerUp c.flash)).1 = true

variable {f₀ : Nat → UInt8}

theorem Secure.start (h : HoldsGoto f₀ 0 L.btldOffset) : Secure uECCVerify L f₀ ⟨f₀, .reset⟩ :=
  ⟨.inl h, fun _ _ => rfl, nofun, nofun⟩

/-- What one step preserves. -/
theorem Secure.step (hc : Secure uECCVerify L f₀ c) (he : Benign L e c)
    (h : step uECCVerify L e c = some c') : Secure uECCVerify L f₀ c' := by
  obtain ⟨hsafe, hcode, hmode, -⟩ := hc
  cases step_cases h with
  | @run t f _ =>
    have hflash := main_take_all L t f uECCVerify 0
    refine ⟨?_, fun a ha => ?_, ?_, fun huser => ?_⟩
    · dsimp only
      rw [hflash]
      exact main_take_safe hsafe he _
    · dsimp only
      rw [hflash, main_take_above ha]
      exact hcode a ha
    · dsimp only
      split <;> nofun
    · dsimp only at huser
      split at huser
      · next hend =>
        obtain ⟨ht, hvalid⟩ := main_ending.mp hend
        dsimp only
        rwa [hflash, main_take_quiet ht]
      · cases huser
  | @powerLoss t cut f _ =>
    exact ⟨main_take_safe hsafe he cut, fun a ha => (main_take_above ha cut).trans (hcode a ha),
      nofun, nofun⟩
  | restart =>
    exact ⟨hsafe.congr fun a ha => he a (.inl ha), fun a ha => (he a (.inr ha)).trans (hcode a ha),
      nofun, nofun⟩
  | stray hboots => exact absurd hsafe.boots hboots

end Chip

end

/-- The handshake message at the first looks, and nothing after it. -/
def handshakeTurn : Turn where
  poll k := hostHandshakeMsg[k]?
  msg _ := 0
  rs := []

theorem vectorFlash_boots : Boots pic18f25k22 vectorFlash :=
  ResetSafe.boots (.inl vectorFlash_holds)

theorem vectorFlash_powerLoss : ∃ c, Chip.step verifySecp256k1 pic18f25k22
    (.powerLoss handshakeTurn 3) ⟨vectorFlash, .reset⟩ = some c :=
  ⟨_, by rw [Chip.step, if_pos vectorFlash_boots]⟩

/-- A session that loses power with block 0 erased. -/
theorem vectorFlash_kept : ∃ c, Chip.step verifySecp256k1 pic18f25k22
    (.powerLoss handshakeTurn 3) ⟨vectorFlash, .reset⟩ = some c ∧
      c.flash 0x1000 = vectorFlash 0x1000 := by
  have hkeeps : Chip.KeepsCode pic18f25k22 (.powerLoss handshakeTurn 3) ⟨vectorFlash, .reset⟩ :=
    trivial
  obtain ⟨c, hstep⟩ := vectorFlash_powerLoss
  exact ⟨c, hstep, Chip.bootloader_kept verifySecp256k1 pic18f25k22 ⟨vectorFlash, .reset⟩ c
    (.step .start hkeeps hstep) 0x1000 (by decide)⟩

/-! ## What is started -/

/-- The signature is valid under the key of the device, and no step of its verification is
exceptional. -/
def Genuine (messageHash signature : List UInt8) : Prop :=
  Ecdsa.Valid orderN xCoordinate generator keyPoint (digest messageHash sha256BlockSize)
      (signatureR signature) (signatureS signature) ∧
    RegularRun keyPoint (digest messageHash sha256BlockSize) (signatureR signature)
      (signatureS signature)

/-- A product of the verification loses a carry in `vli_mmod_fast_secp256k1`. -/
def LosesCarry (messageHash signature : List UInt8) : Prop :=
  uECCVerify ecPubKey messageHash sha256BlockSize signature (curveWith guarded) = none

theorem verifySecp256k1_iff {messageHash signature : List UInt8} (hhash : messageHash.length = 32)
    (hsig : signature.length = 64) : LosesCarry messageHash signature ∨
      (verifySecp256k1 ecPubKey messageHash signature = true ↔ Genuine messageHash signature) := by
  obtain ⟨⟨b, hb, hiff⟩, -, hcarry⟩ := uECCVerify_answers isPoint_ecPubKey keyPoint_ne.1
    keyPoint_ne.2 rfl
    (show sha256BlockSize ≤ messageHash.length from hhash.ge) hsig
  refine hcarry.imp_right fun hshipped => ?_
  rw [verifySecp256k1, hshipped, hb, Genuine, ← hiff, beq_iff_eq, Option.some.injEq]

theorem length_sha256 {bytes : List UInt8} : (sha256 bytes).length = 32 := by
  rw [sha256_eq]
  rfl

/-- The image in flash is signed with the stored signature. -/
def Authentic (L : Layout) (f : Nat → UInt8) : Prop :=
  Genuine (sha256 (hashedBytes L (.powerUp f))) (storedSignat L f)

theorem signatureValid_authentic :
    LosesCarry (sha256 (hashedBytes L (.powerUp f))) (storedSignat L f) ∨
      ((signatureValid verifySecp256k1 L (.powerUp f)).1 = true ↔ Authentic L f) := by
  rw [signatureValid_eq]
  exact verifySecp256k1_iff length_sha256 Buf.length_toList

/-- **Secure boot**: in any life of a device that starts with the reset vector in place, whose
sessions spare the vector and start with it in block 0, and whose user code leaves the vector and the
bootloader alone, every reset comes to the bootloader, wherever power fails; the bootloader's code
stays as it was; and the user code is started on no image but a signed one. -/
theorem secure_boot (L : Layout) (f₀ : Nat → UInt8) (c : Chip)
    (hf : HoldsGoto f₀ 0 L.btldOffset)
    (h : Transition.Reach (Chip.step verifySecp256k1 L) (Chip.Benign L) ⟨f₀, .reset⟩ c) :
    c.mode ≠ .astray ∧ Boots L c.flash ∧ (∀ a, L.btldOffset ≤ a → c.flash a = f₀ a) ∧
      (c.mode = .userCode → Authentic L c.flash ∨
        LosesCarry (sha256 (hashedBytes L (.powerUp c.flash))) (storedSignat L c.flash)) := by
  have hsecure : Chip.Secure verifySecp256k1 L f₀ c :=
    h.invariant (.start hf) fun _ _ _ hc he hstep => hc.step he hstep
  refine ⟨hsecure.mode, hsecure.safe.boots, hsecure.code, fun huser => ?_⟩
  rcases signatureValid_authentic (L := L) (f := c.flash) with hcarry | hiff
  · exact .inr hcarry
  · exact .inl (hiff.mp (hsecure.checked huser))

theorem vectorFlash_secure : ∃ c, Chip.step verifySecp256k1 pic18f25k22
    (.powerLoss handshakeTurn 3) ⟨vectorFlash, .reset⟩ = some c ∧ Boots pic18f25k22 c.flash := by
  have hbenign : Chip.Benign pic18f25k22 (.powerLoss handshakeTurn 3) ⟨vectorFlash, .reset⟩ :=
    fun _ => ⟨⟨0, by decide, by decide⟩, nofun⟩
  obtain ⟨c, hstep⟩ := vectorFlash_powerLoss
  exact ⟨c, hstep,
    (secure_boot pic18f25k22 vectorFlash c vectorFlash_holds (.step .start hbenign hstep)).2.1⟩

/-- **From the HEX file to the user code**: where a session of the tool has ended, the next run of
`main` without a handshake starts the user code exactly if the tool's signature on the image of the
file is valid under the key of the device. -/
theorem flashed_image_boots (C : HostCrypto) (L : Layout) (s : Nvm) (msg : Nat → UInt8)
    (file : List Line) (recs : List (Nat × List UInt8)) (c : Link) (t : Turn)
    (hsha : ∀ bytes, C.sha256 bytes = sha256 bytes) (hs : s.Idle) (hfile : HexFile file recs)
    (hrecs : Signable L recs) (hreach : Flashing C L s msg file c)
    (hstuck : Dialogue.Stuck (tool C) (bootloader L) c) :
    LosesCarry (C.sha256 (image recs)) (C.signDigest (C.sha256 (image recs))) ∨
      ((main verifySecp256k1 L t (.powerUp c.server.nvm.flash)).ending = .userCode ↔
        ¬ t.Expected ∧ Genuine (C.sha256 (image recs)) (C.signDigest (C.sha256 (image recs)))) := by
  have hagreed : Agreed verifySecp256k1 C L recs c :=
    stuck_agreed hsha hs hfile hrecs hreach hstuck
  have hlen : (C.sha256 (image recs)).length = 32 := by rw [hsha, length_sha256]
  refine (verifySecp256k1_iff hlen (C.length_signDigest _)).imp_right fun hiff => ?_
  rw [main_ending, hagreed.verdict, hagreed.image, hiff]

/-- A run that hears nothing, after a session of the sample. -/
theorem sampleRecords_boots : ∃ c t,
    Flashing sampleCrypto pic18f25k22 (.powerUp vectorFlash) (fun _ => 0)
      (sampleRecords.map HexRecord.toLine) c ∧
    (LosesCarry (sha256 (image (flashable 0 false sampleRecords))) (sampleCrypto.signDigest []) ∨
      ((main verifySecp256k1 pic18f25k22 t (.powerUp c.server.nvm.flash)).ending = .userCode ↔
        ¬ t.Expected ∧ Genuine (sha256 (image (flashable 0 false sampleRecords)))
          (sampleCrypto.signDigest []))) := by
  obtain ⟨c, hreach, hstuck⟩ := Dialogue.exists_stuck
    (tool_step_wf sampleCrypto (bootloader pic18f25k22))
    ⟨hostStart _, sessionStart pic18f25k22 (.powerUp vectorFlash) fun _ => 0, [], []⟩
  have hfile := hexFile_records sampleRecords ⟨sampleRecords[2], by simp [sampleRecords], rfl⟩
  exact ⟨c, ⟨fun _ => none, fun _ => 0, []⟩, hreach,
    flashed_image_boots sampleCrypto pic18f25k22 (.powerUp vectorFlash) (fun _ => 0) _ _ c _
      (fun _ => rfl) (Nvm.idle_powerUp vectorFlash) hfile sampleRecords_signable hreach hstuck⟩

end Pic18Boot
