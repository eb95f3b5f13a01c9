import Mathlib.Algebra.Group.Defs
import Mathlib.Algebra.Module.NatInt
import Mathlib.Data.Nat.Bitwise
import Mathlib.Data.Nat.Size
import Mathlib.Tactic.Abel
import Mathlib.Tactic.Positivity

/-! # Shamir's trick with partial operations

`u • g + v • q` by one double-and-add over the bits of both scalars, with `s = g + q` at hand. The
doubling and the addition of the group are partial, as formulas for points are that cannot give
the zero of the group and cannot add a point to itself: `none` is a sum they have no value for. A
run that has a value has the right one, and it has one exactly when no step is exceptional
(`shamir_eq_some_iff`). -/

namespace DoubleAndAdd

variable {G : Type*} {g q S P : G} {u v i k : ℕ}

/-- What is added for one bit of each scalar. -/
def select (g q s : G) : Bool → Bool → Option G
  | false, false => none
  | true, false => some g
  | false, true => some q
  | true, true => some s

theorem div_two_pow (u i : ℕ) : u / 2 ^ i = 2 * (u / 2 ^ (i + 1)) + (u.testBit i).toNat := by
  rw [Nat.toNat_testBit, pow_succ, ← Nat.div_div_eq_div_mul, Nat.div_add_mod]

/-- One of two numbers has the highest bit of the longer. -/
theorem exists_select {s : G} (hpos : 0 < max u.size v.size) :
    ∃ P, select g q s (u.testBit (max u.size v.size - 1)) (v.testBit (max u.size v.size - 1)) =
      some P := by
  generalize hk : max u.size v.size - 1 = k
  cases hub : u.testBit k with
  | true => cases v.testBit k <;> simp [select]
  | false =>
    cases hvb : v.testBit k with
    | true => simp [select]
    | false =>
      exfalso
      have hlow : ∀ w : ℕ, w.size ≤ k + 1 → w.testBit k = false → w.size ≤ k := by
        intro w hw hb
        have hdiv := div_two_pow w k
        rw [Nat.div_eq_of_lt (Nat.size_le.mp hw), hb] at hdiv
        exact Nat.size_le.mpr ((Nat.div_eq_zero_iff_lt (by positivity)).mp hdiv)
      have := max_le (hlow u (by omega) hub) (hlow v (by omega) hvb)
      omega

variable [AddCommGroup G]

/-- The multiple that the bits from `i` up stand for. -/
def upper (g q : G) (u v i : ℕ) : G := (u / 2 ^ i) • g + (v / 2 ^ i) • q

/-- No step from bit `k` down is exceptional: no double is zero, and none is the point that is added
to it or its inverse. -/
def Regular (g q : G) (u v k : ℕ) : Prop :=
  ∀ i < k, upper g q u v (i + 1) + upper g q u v (i + 1) ≠ 0 ∧
    ∀ P, select g q (g + q) (u.testBit i) (v.testBit i) = some P →
      upper g q u v (i + 1) + upper g q u v (i + 1) ≠ P ∧
        upper g q u v (i + 1) + upper g q u v (i + 1) ≠ -P

theorem select_eq (a b : Bool) :
    (select g q (g + q) a b).getD 0 = a.toNat • g + b.toNat • q := by
  cases a <;> cases b <;> simp [select]

/-- One more bit. -/
theorem upper_step : upper g q u v i = upper g q u v (i + 1) + upper g q u v (i + 1) +
    (select g q (g + q) (u.testBit i) (v.testBit i)).getD 0 := by
  rw [select_eq, upper, upper, div_two_pow u i, div_two_pow v i, add_nsmul, add_nsmul, mul_nsmul',
    mul_nsmul', two_nsmul, two_nsmul]
  abel

variable [DecidableEq G]

def double (R : G) : Option G := if R + R = 0 then none else some (R + R)

def add (R P : G) : Option G := if R = P ∨ R = -P then none else some (R + P)

/-- The steps for the bits below `i`, from what the higher ones gave. -/
def loop (g q s : G) (u v : ℕ) : ℕ → G → Option G
  | 0, R => some R
  | i + 1, R => (double R).bind fun R =>
    match select g q s (u.testBit i) (v.testBit i) with
    | none => loop g q s u v i R
    | some P => (add R P).bind (loop g q s u v i)

/-- The bits of the longer scalar, from the highest one down. -/
def shamir (g q s : G) (u v : ℕ) : Option G :=
  let k := max u.size v.size
  (select g q s (u.testBit (k - 1)) (v.testBit (k - 1))).bind (loop g q s u v (k - 1))

/-- One step from a value that may be missing. -/
theorem bind_loop_succ {s : G} (R : Option G) : R.bind (loop g q s u v (k + 1)) =
    ((select g q s (u.testBit k) (v.testBit k)).elim (R.bind double) fun P =>
      (R.bind double).bind fun R => add R P).bind (loop g q s u v k) := by
  cases R with
  | none => cases select g q s (u.testBit k) (v.testBit k) <;> rfl
  | some R =>
    rw [Option.bind_some, Option.bind_some, loop]
    cases select g q s (u.testBit k) (v.testBit k) with
    | none => rfl
    | some P => exact (Option.bind_assoc _ _ _).symm

theorem loop_upper : loop g q (g + q) u v k (upper g q u v k) = some S ↔
    Regular g q u v k ∧ S = upper g q u v 0 := by
  induction k with
  | zero => simp [loop, Regular, eq_comm]
  | succ k ih =>
    have hstep := upper_step (g := g) (q := q) (u := u) (v := v) (i := k)
    have hreg : Regular g q u v (k + 1) ↔
        (upper g q u v (k + 1) + upper g q u v (k + 1) ≠ 0 ∧
          ∀ P, select g q (g + q) (u.testBit k) (v.testBit k) = some P →
            upper g q u v (k + 1) + upper g q u v (k + 1) ≠ P ∧
              upper g q u v (k + 1) + upper g q u v (k + 1) ≠ -P) ∧ Regular g q u v k := by
      rw [Regular, Regular, Nat.forall_lt_succ_right, and_comm]
    rw [loop, hreg, double]
    generalize hD : upper g q u v (k + 1) + upper g q u v (k + 1) = D at *
    by_cases hzero : D = 0
    · simp [hzero]
    · rw [if_neg hzero, Option.bind_some]
      cases hsel : select g q (g + q) (u.testBit k) (v.testBit k) with
      | none =>
        rw [hsel, Option.getD_none, add_zero] at hstep
        rw [← hstep] at hzero ⊢
        simp [ih, hzero]
      | some P =>
        rw [hsel, Option.getD_some] at hstep
        simp only [add]
        by_cases hexc : D = P ∨ D = -P
        · rw [if_pos hexc]
          rcases hexc with rfl | rfl <;> simp
        · rw [if_neg hexc, Option.bind_some, ← hstep, ih]
          rw [not_or] at hexc
          simp [hzero, hexc.1, hexc.2]

/-- **Shamir's trick.** -/
theorem shamir_eq_some_iff (hpos : 0 < max u.size v.size) : shamir g q (g + q) u v = some S ↔
    Regular g q u v (max u.size v.size - 1) ∧ S = u • g + v • q := by
  obtain ⟨P, hP⟩ := exists_select (g := g) (q := q) (s := g + q) hpos
  obtain ⟨k, hk⟩ := Nat.exists_eq_add_of_lt hpos
  rw [Nat.zero_add] at hk
  rw [shamir]
  simp only [hk, Nat.add_sub_cancel] at hP ⊢
  have hzero : ∀ w : ℕ, w.size ≤ k + 1 → w / 2 ^ (k + 1) = 0 :=
    fun w hw => Nat.div_eq_of_lt (Nat.size_le.mp hw)
  have htop : upper g q u v (k + 1) = 0 := by
    rw [upper, hzero u (by omega), hzero v (by omega), zero_nsmul, zero_nsmul, add_zero]
  have hstep := upper_step (g := g) (q := q) (u := u) (v := v) (i := k)
  rw [htop, add_zero, zero_add, hP, Option.getD_some] at hstep
  rw [hP, Option.bind_some, ← hstep, loop_upper]
  simp [upper]

end DoubleAndAdd
