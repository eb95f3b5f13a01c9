import Mathlib.Algebra.Group.Nat.Defs
import Mathlib.Logic.Function.Basic

/-! # Counted loops, buffers and integers from bytes

A C loop `for (i = 0; i < n; i++)` is `Nat.fold`; its invariant rule is `Nat.fold_rule`. A buffer
seen through a pointer is a function from offsets; its first `n` bytes are `Buf.toList`. -/

namespace Nat

theorem shiftLeft_or {a b i : Nat} (h : b < 2 ^ i) : a <<< i ||| b = a * 2 ^ i + b := by
  rw [← Nat.shiftLeft_add_eq_or_of_lt h, Nat.shiftLeft_eq]

/-- The integer of three bytes, highest first. -/
theorem or_bytes {a b c : Nat} (hb : b < 2 ^ 8) (hc : c < 2 ^ 8) :
    a <<< 16 ||| b <<< 8 ||| c = a * 2 ^ 16 + b * 2 ^ 8 + c := by
  have hsplit : a <<< 16 ||| b <<< 8 = (a * 2 ^ 8 + b) <<< 8 := by
    rw [← shiftLeft_or hb, Nat.shiftLeft_or_distrib, ← Nat.shiftLeft_add]
  rw [hsplit, shiftLeft_or hc]
  omega

/-- The invariant rule of a counted loop: `P i` holds before the pass with counter `i`. -/
theorem fold_rule {σ : Type*} {n : Nat} {f : (i : Nat) → i < n → σ → σ} {s : σ}
    (P : Nat → σ → Prop) (h0 : P 0 s) (hs : ∀ i h s, P i s → P (i + 1) (f i h s)) :
    P n (Nat.fold n f s) := by
  induction n with
  | zero => exact h0
  | succ n ih =>
    rw [Nat.fold_succ]
    exact hs n _ _ (ih fun i h s => hs i (Nat.lt_succ_of_lt h) s)

end Nat

/-- The first `n` bytes behind a pointer. -/
def Buf.toList {β : Type*} (p : Nat → β) (n : Nat) : List β := (List.range n).map p

namespace Buf

variable {β : Type*} {p q : Nat → β} {n : Nat}

@[simp] theorem length_toList : (toList p n).length = n := by simp [toList]

@[simp] theorem toList_zero : toList p 0 = [] := rfl

theorem getElem?_toList {k : Nat} (h : k < n) : (toList p n)[k]? = some (p k) := by
  simp [toList, h]

theorem toList_succ : toList p (n + 1) = toList p n ++ [p n] := by
  simp [toList, List.range_succ]

theorem toList_add {m : Nat} : toList p (n + m) = toList p n ++ toList (fun k => p (n + k)) m := by
  simp [toList, List.range_add, Function.comp_def]

theorem toList_congr (h : ∀ k < n, p k = q k) : toList p n = toList q n :=
  List.map_congr_left fun k hk => h k (List.mem_range.mp hk)

theorem toList_eq_iff : toList p n = toList q n ↔ ∀ k < n, p k = q k := by
  refine ⟨fun h k hk => ?_, toList_congr⟩
  have := congrArg (·[k]?) h
  simpa only [getElem?_toList hk, Option.some.injEq] using this

/-- A list is the buffer it is copied into. -/
theorem toList_eq_of_getElem? {l : List β} (hl : l.length = n) (h : ∀ k < n, l[k]? = some (p k)) :
    toList p n = l := by
  refine List.ext_getElem? fun k => ?_
  by_cases hk : k < n
  · rw [getElem?_toList hk, h k hk]
  · rw [List.getElem?_eq_none (by simpa using hk), List.getElem?_eq_none (by omega)]

end Buf

/-- A loop that may fail on an element yields a list exactly when it fails on none. -/
theorem List.mapM_eq_some_iff {α β : Type*} {f : α → Option β} {l : List α} {r : List β} :
    l.mapM f = some r ↔ l.map f = r.map some := by
  induction l generalizing r with
  | nil => cases r <;> simp
  | cons a l ih =>
    cases r with
    | nil => simp [Option.bind_eq_some_iff]
    | cons b r => simp [Option.bind_eq_some_iff, ih]
