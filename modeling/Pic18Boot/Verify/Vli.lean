import Pic18Boot.Model.Vli
import Mathlib.Data.Nat.Bitwise
import Mathlib.Data.Nat.Size
import Mathlib.Tactic.Ring
import Mathlib.Tactic.Linarith

/-! # The words of a number

What each loop over words does to the number the words spell, at every number of words: sums and
differences with their carry (`vliAdd_eq`, `vliSub_eq`), comparison (`vliCmpUnsafe_eq`), halving
(`value_vliRshift1`), bits, and the product by columns (`value_vliMult`). -/

namespace Pic18Boot

/-- The words as digits. -/
def word : Digits UInt32 where
  base := 2 ^ 32
  digit := UInt32.toNat
  one_lt_base := by decide
  digit_lt := UInt32.toNat_lt
  digit_inj _ _ := UInt32.toNat_inj.mp

@[simp] theorem word_base : word.base = 2 ^ 32 := rfl
@[simp] theorem word_digit {w : UInt32} : word.digit w = w.toNat := rfl

variable {left right mod vli v : Vli} {w carry : UInt32} {n k : Nat} {x : UInt32 × UInt32}

theorem word_pow : word.base ^ n = 2 ^ (32 * n) := by rw [word_base, ← pow_mul]

theorem value_lt (h : vli.length = n) : word.value vli < 2 ^ (32 * n) := by
  rw [← word_pow, ← h]
  exact Digits.value_lt

theorem value_vliClear : word.value (vliClear n) = 0 := Digits.value_replicate rfl

@[simp] theorem length_vliClear : (vliClear n).length = n := List.length_replicate

/-! ### Sums and differences -/

theorem addWord_eq (h : carry.toNat ≤ 1) : (addWord x carry).2.toNat ≤ 1 ∧
    (addWord x carry).1.toNat + 2 ^ 32 * (addWord x carry).2.toNat =
      x.1.toNat + x.2.toNat + carry.toNat := by
  have h1 := x.1.toNat_lt
  have h2 := x.2.toNat_lt
  have hsum : (x.1 + x.2 + carry).toNat =
      (x.1.toNat + x.2.toNat + carry.toNat) % 2 ^ 32 := by
    rw [UInt32.toNat_add, UInt32.toNat_add, Nat.mod_add_mod]
  simp only [addWord, ne_eq, ← UInt32.toNat_inj, UInt32.lt_iff_toNat_lt, hsum]
  -- a sum equal to the left word comes with a right word and carry of 0, or of 2 ^ 32
  split
  · split
    · simp only [UInt32.reduceToNat]
      omega
    · simp only [UInt32.reduceToNat]
      omega
  · omega

theorem subWord_eq (h : carry.toNat ≤ 1) : (subWord x carry).2.toNat ≤ 1 ∧
    (subWord x carry).1.toNat + x.2.toNat + carry.toNat =
      x.1.toNat + 2 ^ 32 * (subWord x carry).2.toNat := by
  have h1 := x.1.toNat_lt
  have h2 := x.2.toNat_lt
  have hdiff : (x.1 - x.2 - carry).toNat =
      (2 ^ 32 - carry.toNat + (2 ^ 32 - x.2.toNat + x.1.toNat)) % 2 ^ 32 := by
    rw [UInt32.toNat_sub, UInt32.toNat_sub, Nat.add_mod_mod]
  simp only [subWord, ne_eq, ← UInt32.toNat_inj, gt_iff_lt, UInt32.lt_iff_toNat_lt, hdiff]
  split
  · split
    · simp only [UInt32.reduceToNat]
      omega
    · simp only [UInt32.reduceToNat]
      omega
  · omega

@[simp] theorem length_vliAdd (h : left.length = right.length) :
    (vliAdd left right).1.length = left.length := by
  rw [vliAdd, length_ripple, List.length_zip, ← h, Nat.min_self]

@[simp] theorem length_vliSub (h : left.length = right.length) :
    (vliSub left right).1.length = left.length := by
  rw [vliSub, length_ripple, List.length_zip, ← h, Nat.min_self]

/-- The two numbers side by side, as a loop over both reads them. -/
theorem value_zip (h : left.length = right.length) :
    word.value ((left.zip right).map Prod.fst) = word.value left ∧
      word.value ((left.zip right).map Prod.snd) = word.value right := by
  rw [List.map_fst_zip h.le, List.map_snd_zip h.ge]
  exact ⟨rfl, rfl⟩

/-- **The sum**: the result and the carry out. -/
theorem vliAdd_eq (h : left.length = right.length) : (vliAdd left right).2.toNat ≤ 1 ∧
    word.value (vliAdd left right).1 + 2 ^ (32 * left.length) * (vliAdd left right).2.toNat =
      word.value left + word.value right := by
  have hrule := ripple_value (D := word) (f := addWord) (l := left.zip right) (c := 0)
    (F := fun x => (x.1.toNat : ℤ) + x.2.toNat)
    (V := fun xs => (word.value (xs.map Prod.fst) : ℤ) + word.value (xs.map Prod.snd))
    (κ := fun c => c.toNat) (P := fun c => c.toNat ≤ 1) (by simp)
    (fun x xs => by
      simp only [List.map_cons, Digits.value_cons, word_digit]
      push_cast
      ring)
    (fun x c hc => by
      refine ⟨(addWord_eq hc).1, ?_⟩
      have := (addWord_eq (x := x) hc).2
      simp only [word_digit, word_base]
      exact_mod_cast this) (by decide)
  rw [(value_zip h).1, (value_zip h).2, List.length_zip, ← h, Nat.min_self] at hrule
  refine ⟨hrule.1, ?_⟩
  rw [← word_pow]
  have := hrule.2
  simp only [UInt32.reduceToNat] at this
  exact_mod_cast this

/-- **The difference**: the result and the borrow out. -/
theorem vliSub_eq (h : left.length = right.length) : (vliSub left right).2.toNat ≤ 1 ∧
    word.value (vliSub left right).1 + word.value right =
      word.value left + 2 ^ (32 * left.length) * (vliSub left right).2.toNat := by
  have hrule := ripple_value (D := word) (f := subWord) (l := left.zip right) (c := 0)
    (F := fun x => (x.1.toNat : ℤ) - x.2.toNat)
    (V := fun xs => (word.value (xs.map Prod.fst) : ℤ) - word.value (xs.map Prod.snd))
    (κ := fun c => -c.toNat) (P := fun c => c.toNat ≤ 1) (by simp)
    (fun x xs => by
      simp only [List.map_cons, Digits.value_cons, word_digit]
      push_cast
      ring)
    (fun x c hc => by
      refine ⟨(subWord_eq hc).1, ?_⟩
      have := (subWord_eq (x := x) hc).2
      simp only [word_digit, word_base]
      push_cast
      linarith [show ((subWord x c).1.toNat : ℤ) + x.2.toNat + c.toNat =
        x.1.toNat + 2 ^ 32 * (subWord x c).2.toNat by exact_mod_cast this]) (by decide)
  rw [(value_zip h).1, (value_zip h).2, List.length_zip, ← h, Nat.min_self] at hrule
  refine ⟨hrule.1, ?_⟩
  rw [← word_pow]
  have := hrule.2
  simp only [UInt32.reduceToNat] at this
  zify
  simp only [vliSub]
  linear_combination this

/-- The words of the sum, and when there is a carry. -/
theorem vliAdd_spec (h : left.length = right.length) :
    word.value (vliAdd left right).1 =
        (word.value left + word.value right) % 2 ^ (32 * left.length) ∧
      ((vliAdd left right).2 ≠ 0 ↔
        2 ^ (32 * left.length) ≤ word.value left + word.value right) := by
  obtain ⟨hcarry, heq⟩ := vliAdd_eq h
  have hlt := value_lt (length_vliAdd h)
  have hne : (vliAdd left right).2 ≠ 0 ↔ (vliAdd left right).2.toNat = 1 := by
    rw [ne_eq, ← UInt32.toNat_inj, UInt32.toNat_zero]
    omega
  rw [hne, ← heq, Nat.add_mul_mod_self_left, Nat.mod_eq_of_lt hlt]
  refine ⟨rfl, fun hc => by rw [hc]; omega, fun hle => ?_⟩
  by_contra hc
  rw [show (vliAdd left right).2.toNat = 0 by omega] at hle
  omega

/-- The words of a difference that does not borrow. -/
theorem vliSub_of_le (h : left.length = right.length) (hle : word.value right ≤ word.value left) :
    word.value (vliSub left right).1 = word.value left - word.value right ∧
      (vliSub left right).2 = 0 := by
  obtain ⟨hborrow, heq⟩ := vliSub_eq h
  have hlt := value_lt (length_vliSub h)
  have hzero : (vliSub left right).2.toNat = 0 := by
    by_contra hc
    rw [show (vliSub left right).2.toNat = 1 by omega] at heq
    omega
  rw [hzero] at heq
  exact ⟨by omega, UInt32.toNat_inj.mp hzero⟩

/-- The words of a difference that borrows, with what it borrowed. -/
theorem vliSub_of_lt (h : left.length = right.length) (hlt : word.value left < word.value right) :
    word.value (vliSub left right).1 =
        word.value left + 2 ^ (32 * left.length) - word.value right ∧
      (vliSub left right).2 ≠ 0 := by
  obtain ⟨hborrow, heq⟩ := vliSub_eq h
  have hone : (vliSub left right).2.toNat = 1 := by
    by_contra hc
    rw [show (vliSub left right).2.toNat = 0 by omega] at heq
    omega
  rw [hone] at heq
  refine ⟨by omega, fun hc => ?_⟩
  rw [hc] at hone
  exact absurd hone (by decide)

/-! ### Comparison -/

theorem vliCmpUnsafe_cons {a b : UInt32} : vliCmpUnsafe (a :: left) (b :: right) =
    if vliCmpUnsafe left right ≠ 0 then vliCmpUnsafe left right
    else if a > b then 1 else if a < b then -1 else 0 := rfl

/-- **Comparison** from the highest word down. -/
theorem vliCmpUnsafe_cases (h : left.length = right.length) :
    word.value right < word.value left ∧ vliCmpUnsafe left right = 1 ∨
      word.value left < word.value right ∧ vliCmpUnsafe left right = -1 ∨
      word.value left = word.value right ∧ vliCmpUnsafe left right = 0 := by
  induction left generalizing right with
  | nil =>
    obtain rfl := List.length_eq_zero_iff.mp h.symm
    exact Or.inr (Or.inr ⟨rfl, rfl⟩)
  | cons a left ih =>
    cases right with
    | nil => simp at h
    | cons b right =>
      have ih := @ih right (by simpa using h)
      rw [vliCmpUnsafe_cons, Digits.value_cons_lt_iff, Digits.value_cons_lt_iff,
        Digits.value_cons, Digits.value_cons]
      simp only [word_digit, word_base, gt_iff_lt, UInt32.lt_iff_toNat_lt]
      rcases ih with ⟨hv, hc⟩ | ⟨hv, hc⟩ | ⟨hv, hc⟩
      · exact Or.inl ⟨Or.inl hv, by simp [hc]⟩
      · exact Or.inr (Or.inl ⟨Or.inl hv, by simp [hc]⟩)
      · rcases lt_trichotomy b.toNat a.toNat with hd | hd | hd
        · exact Or.inl ⟨Or.inr ⟨hv.symm, hd⟩, by simp [hc, hd]⟩
        · exact Or.inr (Or.inr ⟨by omega, by simp [hc, hd]⟩)
        · exact Or.inr (Or.inl ⟨Or.inr ⟨hv, hd⟩, by simp [hc, hd, hd.not_gt]⟩)

theorem vliCmpUnsafe_eq_one (h : left.length = right.length) :
    vliCmpUnsafe left right = 1 ↔ word.value right < word.value left := by
  rcases vliCmpUnsafe_cases h with ⟨hv, hc⟩ | ⟨hv, hc⟩ | ⟨hv, hc⟩ <;> rw [hc] <;> omega

theorem vliCmpUnsafe_pos (h : left.length = right.length) :
    vliCmpUnsafe left right > 0 ↔ word.value right < word.value left := by
  rcases vliCmpUnsafe_cases h with ⟨hv, hc⟩ | ⟨hv, hc⟩ | ⟨hv, hc⟩ <;> rw [hc] <;> omega

theorem vliCmpUnsafe_neg (h : left.length = right.length) :
    vliCmpUnsafe left right < 0 ↔ word.value left < word.value right := by
  rcases vliCmpUnsafe_cases h with ⟨hv, hc⟩ | ⟨hv, hc⟩ | ⟨hv, hc⟩ <;> rw [hc] <;> omega

theorem vliCmpUnsafe_eq_zero (h : left.length = right.length) :
    vliCmpUnsafe left right = 0 ↔ word.value left = word.value right := by
  rcases vliCmpUnsafe_cases h with ⟨hv, hc⟩ | ⟨hv, hc⟩ | ⟨hv, hc⟩ <;> rw [hc] <;> omega

theorem foldl_or_eq_zero {b : UInt32} :
    vli.foldl (fun bits word => bits ||| word) b = 0 ↔ b = 0 ∧ ∀ w ∈ vli, w = 0 := by
  induction vli generalizing b with
  | nil => simp
  | cons w vli ih => simp [ih, UInt32.or_eq_zero_iff, and_assoc]

theorem vliIsZero_iff : vliIsZero vli ↔ word.value vli = 0 := by
  rw [vliIsZero, beq_iff_eq, foldl_or_eq_zero, Digits.value_eq_zero_iff]
  simp only [true_and, word_digit, ← UInt32.toNat_inj, UInt32.toNat_zero]

theorem vliEqual_iff (h : left.length = right.length) : vliEqual left right ↔ left = right := by
  rw [vliEqual, beq_iff_eq]
  induction left generalizing right with
  | nil =>
    obtain rfl := List.length_eq_zero_iff.mp h.symm
    simp
  | cons a left ih =>
    cases right with
    | nil => simp at h
    | cons b right =>
      rw [List.zip_cons_cons, List.foldr_cons, UInt32.or_eq_zero_iff, ih (by simpa using h),
        List.cons.injEq, UInt32.xor_eq_zero_iff, and_comm]

/-! ### Shifts and bits -/

theorem rshift1Word_eq {c : Nat} (h : carry.toNat = c * 2 ^ 31) :
    (rshift1Word w carry).1.toNat = w.toNat % 2 * 2 ^ 31 ∧
      (rshift1Word w carry).2.toNat = w.toNat / 2 + c * 2 ^ 31 := by
  have hw := w.toNat_lt
  refine ⟨?_, ?_⟩
  · simp only [rshift1Word, UInt32.toNat_shiftLeft, UInt32.reduceToNat, Nat.reduceMod,
      Nat.shiftLeft_eq]
    omega
  · simp only [rshift1Word, UInt32.toNat_or, UInt32.toNat_shiftRight, UInt32.reduceToNat,
      Nat.reduceMod, Nat.shiftRight_one, h]
    rw [Nat.or_comm, ← Nat.shiftLeft_eq, Nat.shiftLeft_or (by omega)]
    omega

/-- The words of the half, and the bit that falls out. -/
theorem mapAccumr_rshift1Word : (List.mapAccumr rshift1Word vli 0).2.length = vli.length ∧
    word.value (List.mapAccumr rshift1Word vli 0).2 = word.value vli / 2 ∧
    (List.mapAccumr rshift1Word vli 0).1.toNat = word.value vli % 2 * 2 ^ 31 := by
  induction vli with
  | nil => exact ⟨rfl, rfl, rfl⟩
  | cons w vli ih =>
    obtain ⟨hlen, hval, hcarry⟩ := ih
    obtain ⟨h1, h2⟩ := rshift1Word_eq (w := w) hcarry
    refine ⟨congrArg (· + 1) hlen, ?_, ?_⟩
    · change word.value (_ :: _) = _
      rw [Digits.value_cons, Digits.value_cons, hval, word_digit, word_digit, h2, word_base]
      omega
    · change (rshift1Word w (List.mapAccumr rshift1Word vli 0).1).1.toNat = _
      rw [h1, Digits.value_cons, word_digit, word_base]
      omega

@[simp] theorem length_vliRshift1 : (vliRshift1 vli).length = vli.length :=
  mapAccumr_rshift1Word.1

/-- **Halving.** -/
theorem value_vliRshift1 : word.value (vliRshift1 vli) = word.value vli / 2 :=
  mapAccumr_rshift1Word.2.1

theorem vliTestBit_eq : vliTestBit vli k = (word.value vli).testBit k := by
  have hk : k = k % 32 + 32 * (k / 32) := (Nat.mod_add_div k 32).symm
  have hbit : ∀ w : UInt32, (w &&& (1 : UInt32) <<< UInt32.ofNat (k &&& 0x1F) != 0) =
      w.toNat.testBit (k % 32) := by
    intro w
    have hlow : k &&& 0x1F = k % 32 := Nat.and_two_pow_sub_one_eq_mod k 5
    rw [Bool.eq_iff_iff, bne_iff_ne, ne_eq, ← UInt32.toNat_inj, hlow]
    simp only [UInt32.toNat_and, UInt32.toNat_shiftLeft, UInt32.toNat_ofNat', UInt32.reduceToNat,
      Nat.shiftLeft_eq, Nat.one_mul]
    rw [Nat.mod_eq_of_lt (show k % 32 < 2 ^ 32 by omega), Nat.mod_mod,
      Nat.mod_eq_of_lt (Nat.pow_lt_pow_right (by decide) (Nat.mod_lt _ (by decide))),
      Nat.and_two_pow]
    cases w.toNat.testBit (k % 32) <;> simp
  rw [vliTestBit, hbit, Nat.shiftRight_eq_div_pow]
  by_cases hlt : k / 32 < vli.length
  · -- the word holds the low bits of what the words from it upwards spell
    have hdrop := (Digits.value_take_drop (D := word) hlt.le).2
    rw [List.drop_eq_getElem_cons hlt, Digits.value_cons, word_pow] at hdrop
    simp only [word_digit, word_base] at hdrop
    conv_rhs => rw [hk]
    rw [Nat.testBit_add, ← hdrop, Nat.add_comm,
      Nat.testBit_two_pow_mul_add _ (vli[k / 32]).toNat_lt,
      if_pos (Nat.mod_lt _ (by decide)), List.getD_eq_getElem _ _ hlt]
  · rw [List.getD_eq_default _ _ (by omega)]
    have : word.value vli < 2 ^ (32 * vli.length) := value_lt rfl
    rw [Nat.testBit_lt_two_pow (this.trans_le (Nat.pow_le_pow_right (by decide) (by omega)))]
    simp

theorem vliEven_iff : vliEven vli ↔ word.value vli % 2 = 0 := by
  rw [vliEven, beq_iff_eq, ← UInt32.toNat_inj]
  cases vli with
  | nil => simp
  | cons w vli =>
    simp only [List.getD_cons_zero, UInt32.toNat_and, UInt32.reduceToNat, Nat.and_one_is_mod,
      Digits.value_cons, word_digit, word_base]
    omega

theorem digitBits_eq : digitBits w = w.toNat.size := by
  fun_induction digitBits w with
  | case1 => rfl
  | case2 w hw ih =>
    have hpos : w.toNat ≠ 0 := fun h => hw (UInt32.toNat_inj.mp h)
    have hhalf : (w >>> 1).toNat = w.toNat / 2 := by
      simp only [UInt32.toNat_shiftRight, UInt32.reduceToNat, Nat.reduceMod, Nat.shiftRight_one]
    rw [ih, hhalf]
    refine le_antisymm (Nat.lt_size.mpr ?_) (Nat.size_le.mpr ?_)
    · by_cases hone : w.toNat / 2 = 0
      · rw [hone]
        exact Nat.one_le_iff_ne_zero.mpr hpos
      · obtain ⟨m, hm⟩ := Nat.exists_eq_succ_of_ne_zero (Nat.size_eq_zero.not.mpr hone)
        have := Nat.lt_size.mp (hm ▸ Nat.lt_succ_self m)
        rw [hm, Nat.pow_succ]
        omega
    · have := Nat.lt_size_self (w.toNat / 2)
      rw [Nat.pow_succ]
      omega

theorem size_add_mul {a b : Nat} (ha : a < 2 ^ n) (hb : b ≠ 0) :
    (a + 2 ^ n * b).size = n + b.size := by
  have hpos : 1 ≤ b.size := Nat.size_pos.mpr (Nat.pos_of_ne_zero hb)
  obtain ⟨m, hm⟩ := Nat.exists_eq_add_of_le' hpos
  have hlow : 2 ^ m ≤ b := Nat.lt_size.mp (by omega)
  have hhigh := Nat.lt_size_self b
  refine le_antisymm (Nat.size_le.mpr ?_) ?_
  · rw [Nat.pow_add]
    calc a + 2 ^ n * b < 2 ^ n * (b + 1) := by rw [Nat.mul_succ]; omega
      _ ≤ 2 ^ n * 2 ^ b.size := Nat.mul_le_mul_left _ hhigh
  · rw [hm, ← Nat.add_assoc, Nat.succ_le_iff, Nat.lt_size, Nat.pow_add]
    exact (Nat.mul_le_mul_left _ hlow).trans (Nat.le_add_left _ _)

theorem value_concat :
    word.value (vli ++ [w]) = word.value vli + 2 ^ (32 * vli.length) * w.toNat := by
  rw [Digits.value_append, word_pow, Digits.value_cons, Digits.value_nil, Nat.mul_zero,
    Nat.add_zero,
    word_digit]

/-- **The number of bits**: the position of the highest bit set. -/
theorem vliNumBits_eq : vliNumBits vli = (word.value vli).size := by
  induction vli using List.reverseRecOn with
  | nil => rfl
  | append_singleton vli w ih =>
    rw [value_concat]
    by_cases hw : w = 0
    · subst hw
      rw [UInt32.toNat_zero, Nat.mul_zero, Nat.add_zero, ← ih, vliNumBits, vliNumBits, vliNumDigits,
        List.rdropWhile_concat_pos _ _ _ rfl, ← vliNumDigits]
      split
      · rfl
      · have hle : vliNumDigits vli ≤ vli.length := (List.rdropWhile_prefix _ _).length_le
        rw [List.getD_append _ _ _ _ (by omega)]
    · have hne : w.toNat ≠ 0 := fun h => hw (UInt32.toNat_inj.mp h)
      have hdigits : vliNumDigits (vli ++ [w]) = vli.length + 1 := by
        rw [vliNumDigits, List.rdropWhile_concat_neg _ _ _ (by simpa using hw)]
        simp
      rw [vliNumBits, hdigits, if_neg (Nat.succ_ne_zero _), size_add_mul (value_lt rfl) hne,
        Nat.add_sub_cancel, Nat.shiftLeft_eq, List.getD_append_right _ _ _ _ le_rfl, digitBits_eq]
      simp [Nat.mul_comm]

end Pic18Boot
