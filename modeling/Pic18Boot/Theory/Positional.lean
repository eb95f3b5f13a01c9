import Mathlib.Algebra.BigOperators.Intervals
import Mathlib.Algebra.BigOperators.Ring.Finset
import Mathlib.Data.List.GetD
import Mathlib.Data.Nat.Digits.Defs
import Mathlib.Tactic.LinearCombination

/-! # Numbers as lists of digits

A number is a list of digits of a type `α`, lowest first; `Digits.value` is `Nat.ofDigits` of what
they stand for. A loop over the digits that hands a carry upwards is `ripple`, and one equation
about a single digit gives what the whole loop computes (`ripple_value`). A product is the sum of
its columns (`sum_column`). -/

/-- A type whose elements are the digits of a base. -/
structure Digits (α : Type*) where
  base : ℕ
  digit : α → ℕ
  one_lt_base : 1 < base
  digit_lt : ∀ a, digit a < base
  digit_inj : Function.Injective digit

namespace Digits

variable {α : Type*} (D : Digits α)

/-- The number the digits `l` spell, lowest digit first. -/
def value (l : List α) : ℕ := Nat.ofDigits D.base (l.map D.digit)

variable {D} {l r : List α} {a b : α} {n : ℕ}

theorem base_pos : 0 < D.base := Nat.lt_of_succ_lt D.one_lt_base

@[simp] theorem value_nil : D.value [] = 0 := rfl

@[simp] theorem value_cons : D.value (a :: l) = D.digit a + D.base * D.value l :=
  Nat.ofDigits_cons

theorem value_append : D.value (l ++ r) = D.value l + D.base ^ l.length * D.value r := by
  rw [value, List.map_append, Nat.ofDigits_append, List.length_map]
  rfl

theorem value_lt : D.value l < D.base ^ l.length := by
  have h := Nat.ofDigits_lt_base_pow_length (l := l.map D.digit) D.one_lt_base fun x hx => by
    obtain ⟨a, _, rfl⟩ := List.mem_map.mp hx
    exact D.digit_lt a
  rwa [List.length_map] at h

theorem value_inj (hlen : l.length = r.length) (h : D.value l = D.value r) : l = r := by
  refine List.map_injective_iff.mpr D.digit_inj
    (Nat.ofDigits_inj_of_len_eq D.one_lt_base ?_ ?_ ?_ h)
  · simpa using hlen
  all_goals
    intro x hx
    obtain ⟨a, _, rfl⟩ := List.mem_map.mp hx
    exact D.digit_lt a

theorem value_replicate (h : D.digit a = 0) : D.value (List.replicate n a) = 0 := by
  rw [value, List.map_replicate, h, Nat.ofDigits_replicate_zero]

/-- The low digits are a remainder and the high digits a quotient. -/
theorem value_take_drop (h : n ≤ l.length) :
    D.value (l.take n) = D.value l % D.base ^ n ∧
      D.value (l.drop n) = D.value l / D.base ^ n := by
  have hsplit : D.value l = D.value (l.take n) + D.base ^ n * D.value (l.drop n) := by
    conv_lhs => rw [← List.take_append_drop n l]
    rw [value_append, List.length_take, Nat.min_eq_left h]
  have hlt : D.value (l.take n) < D.base ^ n := by
    simpa [Nat.min_eq_left h] using D.value_lt (l := l.take n)
  rw [hsplit, Nat.add_mul_mod_self_left, Nat.mod_eq_of_lt hlt, Nat.add_mul_div_left _ _
    (Nat.pow_pos base_pos), Nat.div_eq_of_lt hlt, Nat.zero_add]
  exact ⟨rfl, rfl⟩

theorem value_eq_zero_iff : D.value l = 0 ↔ ∀ a ∈ l, D.digit a = 0 := by
  induction l with
  | nil => simp
  | cons a l ih => simp [ih, (base_pos (D := D)).ne']

/-- The highest digit that differs decides. -/
theorem value_cons_lt_iff : D.value (a :: l) < D.value (b :: r) ↔
    D.value l < D.value r ∨ D.value l = D.value r ∧ D.digit a < D.digit b := by
  have ha := D.digit_lt a
  have hb := D.digit_lt b
  rw [value_cons, value_cons]
  rcases lt_trichotomy (D.value l) (D.value r) with h | h | h
  · have := Nat.mul_le_mul_left D.base (Nat.succ_le_of_lt h)
    rw [Nat.mul_succ] at this
    exact iff_of_true (by omega) (Or.inl h)
  · rw [h]
    omega
  · have := Nat.mul_le_mul_left D.base (Nat.succ_le_of_lt h)
    rw [Nat.mul_succ] at this
    exact iff_of_false (by omega) (by omega)

/-- The digit at place `n`, 0 above the highest. -/
theorem digit_getD (h0 : D.digit b = 0) :
    D.digit (l.getD n b) = D.value l / D.base ^ n % D.base := by
  rcases Nat.lt_or_ge n l.length with h | h
  · rw [← (value_take_drop h.le).2, List.drop_eq_getElem_cons h, value_cons,
      Nat.add_mul_mod_self_left,
      Nat.mod_eq_of_lt (D.digit_lt _), List.getD_eq_getElem _ _ h]
  · rw [List.getD_eq_default _ _ h, h0, Nat.div_eq_of_lt, Nat.zero_mod]
    exact value_lt.trans_le (Nat.pow_le_pow_right base_pos h)

/-- Replacing the digit at place `n`. -/
theorem value_set (h : n < l.length) :
    D.value (l.set n a) + D.base ^ n * D.digit (l.getD n b) =
      D.value l + D.base ^ n * D.digit a := by
  induction l generalizing n with
  | nil => simp at h
  | cons c l ih =>
    cases n with
    | zero =>
      simp only [List.set_cons_zero, value_cons, List.getD_cons_zero]
      ring
    | succ n =>
      simp only [List.set_cons_succ, value_cons, List.getD_cons_succ]
      linear_combination D.base * ih (Nat.lt_of_succ_lt_succ h)

end Digits

section Ripple
variable {ι α γ : Type*}

/-- A loop over digits, lowest first: each pass writes one digit and hands a carry to the next. -/
def ripple (f : ι → γ → α × γ) : List ι → γ → List α × γ
  | [], c => ([], c)
  | x :: l, c =>
    let now := f x c
    let rest := ripple f l now.2
    (now.1 :: rest.1, rest.2)

variable {f : ι → γ → α × γ} {l : List ι} {x : ι} {c : γ} {D : Digits α}

@[simp] theorem ripple_nil : ripple f [] c = ([], c) := rfl

@[simp] theorem ripple_cons : ripple f (x :: l) c =
    ((f x c).1 :: (ripple f l (f x c).2).1, (ripple f l (f x c).2).2) := rfl

@[simp] theorem length_ripple : (ripple f l c).1.length = l.length := by
  induction l generalizing c with
  | nil => rfl
  | cons x l ih => simp [ih]

/-- **The carry rule.** Where one pass turns its input `F x` and the carry in into a digit and the
carry out, weighted by the base, the loop does so with the whole input `V l`. -/
theorem ripple_value {F : ι → ℤ} {V : List ι → ℤ} {κ : γ → ℤ} {P : γ → Prop}
    (hnil : V [] = 0) (hcons : ∀ x l, V (x :: l) = F x + D.base * V l)
    (hstep : ∀ x c, P c → P (f x c).2 ∧
      (D.digit (f x c).1 : ℤ) + D.base * κ (f x c).2 = F x + κ c) (hc : P c) :
    P (ripple f l c).2 ∧
      (D.value (ripple f l c).1 : ℤ) + D.base ^ l.length * κ (ripple f l c).2 =
        V l + κ c := by
  induction l generalizing c with
  | nil => simp [hnil, hc]
  | cons x l ih =>
    obtain ⟨hok, heq⟩ := hstep x c hc
    obtain ⟨hok', heq'⟩ := ih hok
    refine ⟨hok', ?_⟩
    rw [ripple_cons, hcons, Digits.value_cons, List.length_cons]
    push_cast
    linear_combination heq + (D.base : ℤ) * heq'

end Ripple

section Columns
variable {B : ℕ} {l r : List ℕ} {k n : ℕ}

/-- The products of digits whose places add up to `k`. -/
def column (l r : List ℕ) (k : ℕ) : ℕ :=
  ∑ i ∈ Finset.range (k + 1), l.getD i 0 * r.getD (k - i) 0

theorem column_cons_zero {x : ℕ} : column (x :: l) r 0 = x * r.getD 0 0 := by simp [column]

theorem column_cons_succ {x : ℕ} :
    column (x :: l) r (k + 1) = column l r k + x * r.getD (k + 1) 0 := by
  rw [column, Finset.sum_range_succ']
  simp [column]

/-- The places of a column that the two numbers do not both have contribute nothing. -/
theorem column_eq_range {lo hi : ℕ} (hhi : hi ≤ k + 1)
    (hout : ∀ i ≤ k, i < lo ∨ hi ≤ i → l.length ≤ i ∨ r.length ≤ k - i) :
    column l r k = ∑ j ∈ Finset.range (hi - lo), l.getD (lo + j) 0 * r.getD (k - (lo + j)) 0 := by
  rw [← Finset.sum_Ico_eq_sum_range (fun i => l.getD i 0 * r.getD (k - i) 0), column]
  symm
  refine Finset.sum_subset (fun i hi => ?_) fun i hi hni => ?_
  · rw [Finset.mem_Ico] at hi
    rw [Finset.mem_range]
    omega
  · rw [Finset.mem_range] at hi
    rw [Finset.mem_Ico, not_and_or, not_le, not_lt] at hni
    rcases hout i (by omega) hni with h | h
    · rw [List.getD_eq_default _ _ h, Nat.zero_mul]
    · rw [List.getD_eq_default _ _ h, Nat.mul_zero]

theorem sum_getD (h : r.length ≤ n) :
    ∑ k ∈ Finset.range n, r.getD k 0 * B ^ k = Nat.ofDigits B r := by
  induction r generalizing n with
  | nil => simp
  | cons x r ih =>
    obtain ⟨n, rfl⟩ := Nat.exists_eq_add_of_lt (Nat.lt_of_lt_of_le (Nat.succ_pos _) h)
    rw [Nat.zero_add, Finset.sum_range_succ', Nat.ofDigits_cons,
      ← ih (n := n) (by simpa using h), Finset.mul_sum]
    simp only [List.getD_cons_succ, List.getD_cons_zero, pow_zero, mul_one, pow_succ']
    rw [add_comm]
    congr 1
    exact Finset.sum_congr rfl fun k _ => by ring

/-- A product is the sum of its columns. -/
theorem sum_column (h : l.length + r.length ≤ n) :
    ∑ k ∈ Finset.range n, column l r k * B ^ k = Nat.ofDigits B l * Nat.ofDigits B r := by
  induction l generalizing n with
  | nil => simp [column]
  | cons x l ih =>
    obtain ⟨n, rfl⟩ := Nat.exists_eq_add_of_lt
      (Nat.lt_of_lt_of_le (Nat.lt_add_right _ (Nat.succ_pos _)) h)
    have hlen : l.length + r.length ≤ n := by
      rw [List.length_cons] at h
      omega
    have hr := sum_getD (B := B) (r := r) (n := n + 1) (by omega)
    rw [Nat.zero_add, Finset.sum_range_succ', column_cons_zero]
    rw [Finset.sum_range_succ'] at hr
    simp only [column_cons_succ, add_mul, Finset.sum_add_distrib, Nat.ofDigits_cons]
    rw [mul_assoc B, ← ih hlen, ← hr, mul_add, Finset.mul_sum]
    have h1 : ∑ k ∈ Finset.range n, column l r k * B ^ (k + 1) =
        ∑ k ∈ Finset.range n, B * (column l r k * B ^ k) :=
      Finset.sum_congr rfl fun k _ => by ring
    have h2 : ∑ k ∈ Finset.range n, x * r.getD (k + 1) 0 * B ^ (k + 1) =
        ∑ k ∈ Finset.range n, x * (r.getD (k + 1) 0 * B ^ (k + 1)) :=
      Finset.sum_congr rfl fun k _ => by ring
    rw [h1, h2, Finset.mul_sum]
    ring

end Columns
