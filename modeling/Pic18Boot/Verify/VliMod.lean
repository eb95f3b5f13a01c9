import Pic18Boot.Theory.BinaryInverse
import Pic18Boot.Verify.VliMult

/-! # Modular arithmetic on words

`uECC_vli_mmod` is a remainder (`value_vliMmod`), and sums, differences, products and inverses are
taken modulo any modulus that fills its words. The loop of `uECC_vli_modInv` runs through the states
of `BinaryInverse`, the words of each variable spelling its number (`modInvPass_value`). -/

namespace Pic18Boot

variable {left right mod product input vli uv : Vli} {bits : UInt32} {n k c : Nat}

/-! ### The top word -/

@[simp] theorem length_orTop : (orTop vli bits).length = vli.length := List.length_set

/-- Setting the top bit of a number that has it clear. -/
theorem value_orTop (hlen : vli.length = n) (h0 : 0 < n) (hbits : bits.toNat = c * 2 ^ 31)
    (h : word.value vli < 2 ^ (32 * n - 1)) :
    word.value (orTop vli bits) = word.value vli + c * 2 ^ (32 * n - 1) := by
  have hset := Digits.value_set (D := word) (a := vli.getD (vli.length - 1) 0 ||| bits) (b := 0)
    (l := vli) (n := vli.length - 1) (by omega)
  rw [← orTop, word_pow, hlen] at hset
  have hpow : 2 ^ (32 * n - 1) = 2 ^ (32 * (n - 1)) * 2 ^ 31 := by
    rw [← pow_add]
    congr 1
    omega
  -- the top word is less than 2 ^ 31
  have htop : (vli.getD (n - 1) 0).toNat < 2 ^ 31 := by
    have hsplit := (Digits.value_take_drop (D := word) (n := n - 1) (l := vli) (by omega)).2
    rw [List.drop_eq_getElem_cons (by omega), List.drop_eq_nil_of_le (by omega), word_pow] at hsplit
    simp only [Digits.value_cons, Digits.value_nil, Nat.mul_zero, Nat.add_zero, word_digit]
      at hsplit
    rw [List.getD_eq_getElem _ _ (by omega), hsplit, Nat.div_lt_iff_lt_mul (by positivity),
      Nat.mul_comm, ← hpow]
    exact h
  have hor : (vli.getD (n - 1) 0 ||| bits).toNat = (vli.getD (n - 1) 0).toNat + c * 2 ^ 31 := by
    rw [UInt32.toNat_or, hbits, Nat.or_comm, ← Nat.shiftLeft_eq, Nat.shiftLeft_or htop,
      Nat.shiftLeft_eq, Nat.add_comm]
  simp only [word_digit, hor] at hset
  rw [hpow]
  rw [Nat.mul_add] at hset
  have : c * (2 ^ (32 * (n - 1)) * 2 ^ 31) = 2 ^ (32 * (n - 1)) * (c * 2 ^ 31) := by ring
  omega

/-! ### The remainder -/

theorem halveMultiple_eq (hlen : vli.length = 2 * n) (h0 : 0 < n) :
    (halveMultiple n vli).length = 2 * n ∧
      word.value (halveMultiple n vli) = word.value vli / 2 := by
  have hlow : (vli.take n).length = n := by rw [List.length_take]; omega
  have hhigh : (vli.drop n).length = n := by rw [List.length_drop]; omega
  have hbit : (vli.getD n 0 <<< 31).toNat = word.value (vli.drop n) % 2 * 2 ^ 31 := by
    rw [List.drop_eq_getElem_cons (by omega), List.getD_eq_getElem _ _ (by omega),
      Digits.value_cons]
    simp only [UInt32.toNat_shiftLeft, UInt32.reduceToNat, Nat.reduceMod, Nat.shiftLeft_eq,
      word_digit, word_base]
    omega
  have hhalf : 2 ^ (32 * n) = 2 * 2 ^ (32 * n - 1) := by
    rw [← pow_succ', Nat.sub_add_cancel (by omega)]
  have hlt := value_lt hlow
  refine ⟨?_, ?_⟩
  · rw [halveMultiple, List.length_append, length_orTop, length_vliRshift1, length_vliRshift1]
    omega
  · have hsplit : word.value vli =
        word.value (vli.take n) + 2 ^ (32 * n) * word.value (vli.drop n) := by
      conv_lhs => rw [← List.take_append_drop n vli]
      rw [Digits.value_append, word_pow, hlow]
    rw [halveMultiple, Digits.value_append, length_orTop, length_vliRshift1, word_pow, hlow,
      value_orTop (length_vliRshift1.trans hlow) h0 hbit (by rw [value_vliRshift1]; omega),
      value_vliRshift1, value_vliRshift1, hsplit, hhalf]
    generalize word.value (vli.drop n) = d
    generalize 2 ^ (32 * n - 1) = P
    have hd : P * d = P * (d % 2) + 2 * (P * (d / 2)) := by
      conv_lhs => rw [← Nat.mod_add_div d 2]
      ring
    have h1 : 2 * P * d = 2 * (P * d) := by ring
    have h2 : 2 * P * (d / 2) = 2 * (P * (d / 2)) := by ring
    have h3 : d % 2 * P = P * (d % 2) := Nat.mul_comm _ _
    omega

theorem shiftWord_eq {b : Nat} {w carry : UInt32} (hb0 : 0 < b) (hb : b < 32)
    (hc : carry.toNat < 2 ^ b) : (shiftWord b w carry).2.toNat < 2 ^ b ∧
      (shiftWord b w carry).1.toNat + 2 ^ 32 * (shiftWord b w carry).2.toNat =
        w.toNat * 2 ^ b + carry.toNat := by
  have hw := w.toNat_lt
  have hpow : 2 ^ 32 = 2 ^ (32 - b) * 2 ^ b := by rw [← pow_add, Nat.sub_add_cancel hb.le]
  have hhigh : (w >>> UInt32.ofNat (wordBits - b)).toNat = w.toNat / 2 ^ (32 - b) := by
    rw [UInt32.toNat_shiftRight, UInt32.toNat_ofNat',
      Nat.mod_eq_of_lt (show 32 - b < 2 ^ 32 by omega),
      Nat.mod_eq_of_lt (show 32 - b < 32 by omega),
      Nat.shiftRight_eq_div_pow]
  have hlow : (w <<< UInt32.ofNat b).toNat = w.toNat % 2 ^ (32 - b) * 2 ^ b := by
    rw [UInt32.toNat_shiftLeft, UInt32.toNat_ofNat', Nat.mod_eq_of_lt (show b < 2 ^ 32 by omega),
      Nat.mod_eq_of_lt hb, Nat.shiftLeft_eq, hpow, Nat.mul_mod_mul_right]
  simp only [shiftWord, UInt32.toNat_or, hhigh, hlow]
  refine ⟨?_, ?_⟩
  · rw [Nat.div_lt_iff_lt_mul (by positivity), Nat.mul_comm, ← hpow]
    exact hw
  · rw [← Nat.shiftLeft_eq, Nat.shiftLeft_or hc, hpow, Nat.mul_right_comm]
    conv_rhs => rw [← Nat.mod_add_div w.toNat (2 ^ (32 - b))]
    ring

/-- The modulus shifted left by less than a word. -/
theorem value_ripple_shiftWord {b : Nat} (hb0 : 0 < b) (hb : b < 32) (hlen : mod.length = n)
    (h : word.value mod * 2 ^ b < 2 ^ (32 * n)) :
    word.value (ripple (shiftWord b) mod 0).1 = word.value mod * 2 ^ b := by
  have hrule := ripple_value (D := word) (f := shiftWord b) (l := mod) (c := 0)
    (F := fun w => (w.toNat : ℤ) * 2 ^ b) (V := fun ws => (word.value ws : ℤ) * 2 ^ b)
    (κ := fun c => c.toNat) (P := fun c => c.toNat < 2 ^ b) (by simp)
    (fun w ws => by
      simp only [Digits.value_cons, word_digit]
      push_cast
      ring)
    (fun w c hc => by
      refine ⟨(shiftWord_eq hb0 hb hc).1, ?_⟩
      have := (shiftWord_eq (w := w) hb0 hb hc).2
      simp only [word_digit, word_base]
      exact_mod_cast this) (by simp)
  have heq : word.value (ripple (shiftWord b) mod 0).1 +
      2 ^ (32 * n) * (ripple (shiftWord b) mod 0).2.toNat = word.value mod * 2 ^ b := by
    rw [← hlen, ← word_pow]
    have := hrule.2
    simp only [UInt32.reduceToNat, Nat.cast_zero, add_zero] at this
    exact_mod_cast this
  have hzero : (ripple (shiftWord b) mod 0).2.toNat = 0 := by
    by_contra hne
    have := Nat.mul_le_mul_left (2 ^ (32 * n)) (Nat.one_le_iff_ne_zero.mpr hne)
    omega
  rw [hzero] at heq
  exact heq

/-- What the main loop of `uECC_vli_mmod` keeps after `i` passes of `shift + 1`. -/
structure Reducing (x m shift n i : Nat) (st : Vli × Vli) : Prop where
  length_left : st.1.length = 2 * n
  length_multiple : st.2.length = 2 * n
  multiple_eq : word.value st.2 = m * 2 ^ shift / 2 ^ i
  mod_eq : word.value st.1 % m = x % m
  lt : word.value st.1 < m * 2 ^ (shift + 1 - i)

theorem Reducing.pass {x m shift i : Nat} {st : Vli × Vli} (h : Reducing x m shift n i st)
    (h0 : 0 < n) (hi : i ≤ shift) : Reducing x m shift n (i + 1) (mmodPass n st) := by
  obtain ⟨hleft, hmult, hmeq, hmod, hlt⟩ := h
  obtain ⟨hlen, hval⟩ := halveMultiple_eq hmult h0
  have hsame : st.1.length = st.2.length := hleft.trans hmult.symm
  -- the multiple is the modulus shifted left by what is left of `shift`
  have hpow : m * 2 ^ shift / 2 ^ i = m * 2 ^ (shift - i) := by
    conv_lhs => rw [← Nat.sub_add_cancel hi, pow_add, ← Nat.mul_assoc]
    exact Nat.mul_div_cancel _ (by positivity)
  have hdouble : m * 2 ^ (shift + 1 - i) = 2 * (m * 2 ^ (shift - i)) := by
    rw [Nat.succ_sub hi, pow_succ]
    ring
  have hnext : shift + 1 - (i + 1) = shift - i := by omega
  have hmult' : word.value (halveMultiple n st.2) = m * 2 ^ shift / 2 ^ (i + 1) := by
    rw [hval, hmeq, Nat.div_div_eq_div_mul, ← pow_succ]
  rw [hpow] at hmeq
  rcases Nat.lt_or_ge (word.value st.1) (word.value st.2) with hcmp | hcmp
  · have hpass : mmodPass n st = (st.1, halveMultiple n st.2) := by
      rw [mmodPass, if_neg (vliSub_of_lt hsame hcmp).2]
    rw [hpass]
    exact ⟨hleft, hlen, hmult', hmod, by rw [hnext, ← hmeq]; exact hcmp⟩
  · obtain ⟨hdiff, hborrow⟩ := vliSub_of_le hsame hcmp
    have hpass : mmodPass n st = ((vliSub st.1 st.2).1, halveMultiple n st.2) := by
      rw [mmodPass, if_pos hborrow]
    rw [hpass]
    refine ⟨(length_vliSub hsame).trans hleft, hlen, hmult', ?_, ?_⟩
    · simp only
      rw [hdiff, hmeq, ← hmod]
      have hle : m * 2 ^ (shift - i) ≤ word.value st.1 := hmeq ▸ hcmp
      conv_rhs => rw [← Nat.sub_add_cancel hle, Nat.add_mul_mod_self_left]
    · simp only
      rw [hdiff, hnext]
      omega

/-- **The remainder**, for a modulus with its top word in use. -/
theorem value_vliMmod (hp : product.length = 2 * n) (hm : mod.length = n) (h0 : 0 < n)
    (htop : 2 ^ (32 * (n - 1)) ≤ word.value mod) :
    (vliMmod product mod n).length = n ∧
      word.value (vliMmod product mod n) = word.value product % word.value mod := by
  have hsize : 32 * (n - 1) < (word.value mod).size := Nat.lt_size.mpr htop
  have hsize' : (word.value mod).size ≤ 32 * n := Nat.size_le.mpr (value_lt hm)
  obtain ⟨b, hb⟩ := Nat.exists_eq_add_of_le hsize'
  have hshift : n * 2 * wordBits - vliNumBits mod = 32 * n + b := by
    rw [vliNumBits_eq]
    simp only [wordBits]
    omega
  have hbound := Nat.lt_size_self (word.value mod)
  have hfit : word.value mod * 2 ^ b < 2 ^ (32 * n) := by
    rw [hb, pow_add]
    exact Nat.mul_lt_mul_of_pos_right hbound (by positivity)
  have hfirst : (vliClear n ++ if b > 0 then (ripple (shiftWord b) mod 0).1 else mod).length =
        2 * n ∧
      word.value (vliClear n ++ if b > 0 then (ripple (shiftWord b) mod 0).1 else mod) =
        word.value mod * 2 ^ (32 * n + b) := by
    rw [List.length_append, Digits.value_append, length_vliClear, value_vliClear, word_pow]
    split
    · rename_i hb0
      rw [length_ripple, hm, value_ripple_shiftWord hb0 (by omega) hm hfit, pow_add]
      exact ⟨by omega, by ring⟩
    · rw [show b = 0 by omega, hm]
      exact ⟨by omega, by ring⟩
  have hloop : Reducing (word.value product) (word.value mod) (32 * n + b) n (32 * n + b + 1)
      (Nat.fold (32 * n + b + 1) (fun _ _ st => mmodPass n st)
        (product, vliClear n ++ if b > 0 then (ripple (shiftWord b) mod 0).1 else mod)) := by
    refine Nat.fold_rule
      (P := fun i st => Reducing (word.value product) (word.value mod) (32 * n + b) n i st)
      ⟨hp, hfirst.1, by rw [hfirst.2, pow_zero, Nat.div_one], rfl, ?_⟩
      fun i hi st hst => hst.pass h0 (Nat.le_of_lt_succ hi)
    -- the modulus shifted as far as it goes is above half of what the product can be
    obtain ⟨s, hs⟩ := Nat.exists_eq_add_of_lt hsize
    have hhalf : 2 ^ (32 * (n - 1) + s) ≤ word.value mod := Nat.lt_size.mp (by omega)
    refine (value_lt hp).trans_le ?_
    calc 2 ^ (32 * (2 * n)) = 2 ^ (32 * (n - 1) + s) * 2 ^ (32 * n + b + 1 - 0) := by
          rw [← pow_add]
          congr 1
          omega
      _ ≤ _ := Nat.mul_le_mul_right _ hhalf
  have hmod : vliMmod product mod n = (Nat.fold (32 * n + b + 1) (fun _ _ st => mmodPass n st)
      (product, vliClear n ++ if b > 0 then (ripple (shiftWord b) mod 0).1 else mod)).1.take n := by
    rw [vliMmod, hshift]
    simp only [wordBits]
    rw [show (32 * n + b) / 32 = n by omega, show (32 * n + b) % 32 = b by omega]
  rw [hmod]
  generalize Nat.fold _ _ _ = st at hloop
  obtain ⟨hleft, -, -, hval, hlt⟩ := hloop
  rw [Nat.sub_self, pow_zero, Nat.mul_one] at hlt
  refine ⟨by rw [List.length_take]; omega, ?_⟩
  rw [(Digits.value_take_drop (D := word) (by omega : n ≤ st.1.length)).1, word_pow,
    Nat.mod_eq_of_lt (hlt.trans (value_lt hm)), ← hval, Nat.mod_eq_of_lt hlt]

theorem value_vliModMult (hl : left.length = n) (hr : right.length = n) (hm : mod.length = n)
    (h0 : 0 < n) (hn : n < 2 ^ 31) (htop : 2 ^ (32 * (n - 1)) ≤ word.value mod) :
    (vliModMult left right mod n).length = n ∧ word.value (vliModMult left right mod n) =
      word.value left * word.value right % word.value mod := by
  obtain ⟨hlen, hval⟩ := value_vliMult hl hr h0 hn
  have := value_vliMmod hlen hm h0 htop
  rwa [hval] at this

/-! ### Sums and differences modulo -/

theorem value_vliModAdd (hl : left.length = n) (hr : right.length = n) (hm : mod.length = n)
    (hlt : word.value left < word.value mod) (hrt : word.value right < word.value mod) :
    (vliModAdd left right mod).length = n ∧ word.value (vliModAdd left right mod) =
      (word.value left + word.value right) % word.value mod := by
  have hsame : left.length = right.length := hl.trans hr.symm
  have hlen : (vliAdd left right).1.length = n := (length_vliAdd hsame).trans hl
  have hsame' : (vliAdd left right).1.length = mod.length := hlen.trans hm.symm
  obtain ⟨hcarry, hsum⟩ := vliAdd_eq hsame
  rw [hl] at hsum
  have hmod := value_lt hm
  have hres := value_lt hlen
  rw [vliModAdd]
  simp only [ne_eq, vliCmpUnsafe_eq_one hsame'.symm, ← UInt32.toNat_inj, UInt32.toNat_zero]
  rcases Nat.eq_zero_or_pos (vliAdd left right).2.toNat with hc | hc
  · rw [hc, Nat.mul_zero, Nat.add_zero] at hsum
    by_cases hcmp : word.value (vliAdd left right).1 < word.value mod
    · rw [if_neg (by omega), ← hsum, Nat.mod_eq_of_lt hcmp]
      exact ⟨hlen, rfl⟩
    · rw [if_pos (Or.inr hcmp), (vliSub_of_le hsame' (by omega)).1, ← hsum,
        Nat.mod_eq_sub_mod (by omega), Nat.mod_eq_of_lt (by omega)]
      exact ⟨(length_vliSub hsame').trans hlen, rfl⟩
  · rw [show (vliAdd left right).2.toNat = 1 by omega, Nat.mul_one] at hsum
    rw [if_pos (Or.inl (by omega)), (vliSub_of_lt hsame' (by omega)).1, hlen,
      Nat.mod_eq_sub_mod (by omega), Nat.mod_eq_of_lt (by omega)]
    exact ⟨(length_vliSub hsame').trans hlen, by omega⟩

theorem value_vliModSub (hl : left.length = n) (hr : right.length = n) (hm : mod.length = n)
    (hlt : word.value left < word.value mod) (hrt : word.value right < word.value mod) :
    (vliModSub left right mod).length = n ∧ word.value (vliModSub left right mod) =
      (word.value left + word.value mod - word.value right) % word.value mod := by
  have hsame : left.length = right.length := hl.trans hr.symm
  have hlen : (vliSub left right).1.length = n := (length_vliSub hsame).trans hl
  have hsame' : (vliSub left right).1.length = mod.length := hlen.trans hm.symm
  have hmod := value_lt hm
  rw [vliModSub]
  rcases Nat.lt_or_ge (word.value left) (word.value right) with hcmp | hcmp
  · obtain ⟨hdiff, hborrow⟩ := vliSub_of_lt hsame hcmp
    rw [if_pos hborrow, (vliAdd_spec hsame').1, hdiff, hl, hlen]
    refine ⟨(length_vliAdd hsame').trans hlen, ?_⟩
    rw [Nat.mod_eq_of_lt (show word.value left + word.value mod - word.value right <
      word.value mod by omega), Nat.mod_eq_sub_mod (by omega), Nat.mod_eq_of_lt (by omega)]
    omega
  · obtain ⟨hdiff, hborrow⟩ := vliSub_of_le hsame hcmp
    rw [if_neg (by rw [hborrow]; simp), hdiff]
    refine ⟨hlen, ?_⟩
    rw [show word.value left + word.value mod - word.value right =
      word.value left - word.value right + word.value mod by omega, Nat.add_mod_right,
      Nat.mod_eq_of_lt (by omega)]

/-! ### The inverse -/

theorem modInvUpdate_eq (hlen : uv.length = n) (hm : mod.length = n) (h0 : 0 < n) :
    (modInvUpdate uv mod).length = n ∧ word.value (modInvUpdate uv mod) =
      BinaryInverse.half (word.value mod) (word.value uv) := by
  have hsame : uv.length = mod.length := hlen.trans hm.symm
  have htop : 2 ^ (32 * n) = 2 * 2 ^ (32 * n - 1) := by
    rw [← pow_succ', Nat.sub_add_cancel (by omega)]
  rw [modInvUpdate, BinaryInverse.half]
  by_cases heven : word.value uv % 2 = 0
  · simp only [vliEven_iff.mpr heven, heven, Bool.not_true, Bool.false_eq_true, ↓reduceIte, ne_eq,
      not_true_eq_false]
    exact ⟨length_vliRshift1.trans hlen, value_vliRshift1⟩
  · have hodd : vliEven uv = false := Bool.eq_false_iff.mpr fun h => heven (vliEven_iff.mp h)
    obtain ⟨hcarry, hsum⟩ := vliAdd_eq hsame
    have hadd : (vliAdd uv mod).1.length = n := (length_vliAdd hsame).trans hlen
    have hhalf := @value_vliRshift1 (vliAdd uv mod).1
    have hlt := value_lt hadd
    rw [hlen] at hsum
    simp only [hodd, heven, Bool.not_false, ↓reduceIte, ne_eq, ← UInt32.toNat_inj,
      UInt32.toNat_zero]
    split
    · rw [show (vliAdd uv mod).2.toNat = 1 by omega] at hsum
      rw [length_orTop, value_orTop (c := 1) (length_vliRshift1.trans hadd) h0 (by decide)
        (by omega)]
      exact ⟨length_vliRshift1.trans hadd, by omega⟩
    · rw [show (vliAdd uv mod).2.toNat = 0 by omega] at hsum
      exact ⟨length_vliRshift1.trans hadd, by omega⟩

/-- A difference modulo `mod`, with the modulus added first where it would be negative. -/
theorem modInv_sub_eq (hl : left.length = n) (hr : right.length = n) (hm : mod.length = n)
    (hrt : word.value right < word.value mod) :
    (vliSub (if vliCmpUnsafe left right < 0 then (vliAdd left mod).1 else left) right).1.length =
        n ∧
      word.value
          (vliSub (if vliCmpUnsafe left right < 0 then (vliAdd left mod).1 else left) right).1 =
        BinaryInverse.sub (word.value mod) (word.value left) (word.value right) := by
  have hsame : left.length = mod.length := hl.trans hm.symm
  have hadd : (vliAdd left mod).1.length = n := (length_vliAdd hsame).trans hl
  have hmod := value_lt hm
  rw [BinaryInverse.sub]
  simp only [vliCmpUnsafe_neg (hl.trans hr.symm)]
  split
  · -- the sum may lose its carry, and the borrow then brings it back
    rw [length_vliSub (hadd.trans hr.symm)]
    refine ⟨hadd, ?_⟩
    have hsum := (vliAdd_spec hsame).1
    rw [hl] at hsum
    rcases Nat.lt_or_ge (word.value left + word.value mod) (2 ^ (32 * n)) with hc | hc
    · rw [Nat.mod_eq_of_lt hc] at hsum
      rw [(vliSub_of_le (hadd.trans hr.symm) (by omega)).1]
      omega
    · rw [Nat.mod_eq_sub_mod hc, Nat.mod_eq_of_lt (by omega)] at hsum
      rw [(vliSub_of_lt (hadd.trans hr.symm) (by omega)).1, hadd]
      omega
  · rw [length_vliSub (hl.trans hr.symm), (vliSub_of_le (hl.trans hr.symm) (by omega)).1]
    exact ⟨hl, rfl⟩

/-- The numbers the variables spell. -/
def ModInvVars.values (st : ModInvVars) : BinaryInverse.Vars :=
  { a := word.value st.a, b := word.value st.b, u := word.value st.u, v := word.value st.v }

/-- The variables have `n` words. -/
structure ModInvVars.Sized (n : Nat) (st : ModInvVars) : Prop where
  a_length : st.a.length = n
  b_length : st.b.length = n
  u_length : st.u.length = n
  v_length : st.v.length = n

/-- One pass on the words is one pass on their numbers. -/
theorem modInvPass_value {st : ModInvVars} (hst : st.Sized n) (hm : mod.length = n) (h0 : 0 < n)
    (hu : word.value st.u < word.value mod) (hv : word.value st.v < word.value mod) :
    (modInvPass mod (vliCmpUnsafe st.a st.b) st).Sized n ∧
      (modInvPass mod (vliCmpUnsafe st.a st.b) st).values =
        BinaryInverse.pass (word.value mod) st.values := by
  obtain ⟨hal, hbl, hul, hvl⟩ := hst
  have hab : st.a.length = st.b.length := hal.trans hbl.symm
  obtain ⟨hulen, huval⟩ := modInvUpdate_eq hul hm h0
  obtain ⟨hvlen, hvval⟩ := modInvUpdate_eq hvl hm h0
  rw [modInvPass, BinaryInverse.pass]
  simp only [ModInvVars.values, vliEven_iff, vliCmpUnsafe_pos hab]
  by_cases ha : word.value st.a % 2 = 0
  · simp only [ha, ↓reduceIte]
    exact ⟨⟨length_vliRshift1.trans hal, hbl, hulen, hvl⟩, by rw [value_vliRshift1, huval]⟩
  · by_cases hb : word.value st.b % 2 = 0
    · simp only [ha, hb, ↓reduceIte]
      exact ⟨⟨hal, length_vliRshift1.trans hbl, hul, hvlen⟩, by rw [value_vliRshift1, hvval]⟩
    · by_cases hlt : word.value st.b < word.value st.a
      · simp only [ha, hb, hlt, ↓reduceIte]
        obtain ⟨hdlen, hdval⟩ := modInv_sub_eq hul hvl hm hv
        obtain ⟨hlen, hval⟩ := modInvUpdate_eq hdlen hm h0
        refine ⟨⟨?_, hbl, hlen, hvl⟩, ?_⟩
        · exact length_vliRshift1.trans ((length_vliSub hab).trans hal)
        · rw [value_vliRshift1, (vliSub_of_le hab hlt.le).1, hval, hdval]
      · simp only [ha, hb, hlt, ↓reduceIte]
        obtain ⟨hdlen, hdval⟩ := modInv_sub_eq hvl hul hm hu
        obtain ⟨hlen, hval⟩ := modInvUpdate_eq hdlen hm h0
        refine ⟨⟨hal, ?_, hul, hlen⟩, ?_⟩
        · exact length_vliRshift1.trans ((length_vliSub hab.symm).trans hbl)
        · rw [value_vliRshift1, (vliSub_of_le hab.symm (by omega)).1, hval, hdval]

theorem modInvLoop_value {st : ModInvVars} {x fuel u : Nat} (hst : st.Sized n)
    (hm : mod.length = n) (h0 : 0 < n) (hodd : word.value mod % 2 = 1)
    (hinv : BinaryInverse.Inv (word.value mod) x st.values)
    (h : BinaryInverse.loop (word.value mod) fuel st.values = some u) :
    ∃ w, modInvLoop mod fuel st = some w ∧ w.length = n ∧ word.value w = u := by
  induction fuel generalizing st with
  | zero => cases h
  | succ fuel ih =>
    have hcmp := vliCmpUnsafe_eq_zero (hst.a_length.trans hst.b_length.symm)
    rw [BinaryInverse.loop] at h
    rw [modInvLoop]
    split at h
    · rename_i heq
      obtain rfl := Option.some.inj h
      exact ⟨st.u, if_neg (not_not.mpr (hcmp.mpr heq)), hst.u_length, rfl⟩
    · rename_i hne
      obtain ⟨hsized, hval⟩ := modInvPass_value hst hm h0 hinv.u_lt hinv.v_lt
      rw [if_pos (hcmp.not.mpr hne)]
      refine ih hsized ?_ ?_
      · rw [hval]
        exact (hinv.pass hodd hne).1
      · rw [hval]
        exact h

/-- **The inverse**: modulo an odd number the loop ends, and what it returns times the input is
their greatest common divisor; for 0 it returns 0. -/
theorem vliModInv_spec (hi : input.length = n) (hm : mod.length = n) (h0 : 0 < n)
    (hodd : word.value mod % 2 = 1) (h1 : 1 < word.value mod) :
    ∃ w, vliModInv input mod = some w ∧ w.length = n ∧ word.value w < word.value mod ∧
      (word.value input = 0 → word.value w = 0) ∧
      (word.value input ≠ 0 → word.value w * word.value input ≡
        (word.value input).gcd (word.value mod) [MOD word.value mod]) := by
  rw [vliModInv]
  by_cases hzero : word.value input = 0
  · rw [if_pos (vliIsZero_iff.mpr hzero)]
    exact ⟨_, rfl, by rw [length_vliClear, hi], by rw [value_vliClear]; omega,
      fun _ => value_vliClear, fun h => absurd hzero h⟩
  · rw [if_neg (by rwa [vliIsZero_iff])]
    have hone : word.value ((vliClear n).set 0 1) = 1 := by
      obtain ⟨m, rfl⟩ := Nat.exists_eq_add_of_lt h0
      rw [Nat.zero_add, vliClear, List.replicate_succ, List.set_cons_zero, Digits.value_cons,
        ← vliClear, value_vliClear]
      rfl
    have hfuel : word.value input * word.value mod < 2 ^ (2 * 32 * n) := by
      rw [Nat.mul_assoc, Nat.two_mul, pow_add]
      exact Nat.mul_lt_mul'' (value_lt hi) (value_lt hm)
    obtain ⟨u, hloop, hlt, hmul⟩ := BinaryInverse.loop_spec hodd h1 (Nat.pos_of_ne_zero hzero) hfuel
    have hvalues : ModInvVars.values
        { a := input, b := mod, u := (vliClear n).set 0 1, v := vliClear n } =
        { a := word.value input, b := word.value mod, u := 1, v := 0 } := by
      rw [ModInvVars.values, hone, value_vliClear]
    have hsized : ModInvVars.Sized n
        { a := input, b := mod, u := (vliClear n).set 0 1, v := vliClear n } :=
      ⟨hi, hm, by simp, by simp⟩
    obtain ⟨w, hw, hlen, hval⟩ := modInvLoop_value hsized hm h0 hodd
      (hvalues ▸ BinaryInverse.Inv.start h1 (Nat.pos_of_ne_zero hzero)) (hvalues ▸ hloop)
    simp only [hi]
    exact ⟨w, hw, hlen, hval ▸ hlt, fun h => absurd h hzero, fun _ => hval ▸ hmul⟩

end Pic18Boot
