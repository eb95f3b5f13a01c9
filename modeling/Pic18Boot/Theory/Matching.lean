import Mathlib.Algebra.Group.Nat.Even
import Mathlib.Data.List.Induction

/-! # A matcher that starts over at a mismatch

It counts the symbols of the pattern it has matched and at a mismatch starts over, without looking
at that symbol again. For a pattern whose first symbol occurs nowhere else in it, such a matcher
finds an occurrence exactly when an even number of attempts at the pattern stands directly before it
(`finds_iff`): an attempt that the matcher follows makes it miss the one after. -/

namespace Matching

variable {α : Type*} [DecidableEq α]

/-- One symbol, with `i` symbols of the pattern matched before it. -/
def advance (pat : List α) (i : Nat) (a : α) : Nat := if pat[i]? = some a then i + 1 else 0

/-- How much of the pattern is matched after `s`. -/
def matched (pat s : List α) : Nat := s.foldl (advance pat) 0

/-- The whole pattern is matched after some part of `s`. -/
def Finds (pat s : List α) : Prop := ∃ p, p <+: s ∧ matched pat p = pat.length

/-- The symbols end in `n` attempts at the pattern, nonempty beginnings of it one directly after the
other, and there is no attempt directly before these. -/
inductive Attempts (pat : List α) : List α → Nat → Prop
  | start {p} : (∀ t, t <+: pat → t <:+ p → t = []) → Attempts pat p 0
  | next {p t n} : Attempts pat p n → t <+: pat → t ≠ [] → Attempts pat (p ++ t) (n + 1)

variable {pat p s t : List α} {a first : α} {rest : List α} {i n : Nat}

@[simp] theorem matched_nil : matched pat [] = 0 := rfl

theorem matched_concat : matched pat (p ++ [a]) = advance pat (matched pat p) a := by
  simp [matched]

/-- What is matched is the end of what was read, and the matcher stood at 0 before it. -/
theorem matched_split (pat s : List α) :
    ∃ p, s = p ++ pat.take (matched pat s) ∧ matched pat p = 0 := by
  induction s using List.reverseRecOn with
  | nil => exact ⟨[], by simp, rfl⟩
  | append_singleton s a ih =>
    obtain ⟨p, hs, hp⟩ := ih
    rw [matched_concat, advance]
    split
    · next ha =>
      refine ⟨p, ?_, hp⟩
      rw [List.take_add_one, ha, Option.toList_some, ← List.append_assoc, ← hs]
    · next ha =>
      refine ⟨s ++ [a], by simp, ?_⟩
      rw [matched_concat, advance, if_neg ha]

/-- From 0 an attempt is followed to its end. -/
theorem matched_attempt (hp : matched pat p = 0) (ht : t <+: pat) :
    matched pat (p ++ t) = t.length := by
  induction t using List.reverseRecOn with
  | nil => rw [List.append_nil, hp, List.length_nil]
  | append_singleton t a ih =>
    have hlast : pat[t.length]? = some a := by
      obtain ⟨u, rfl⟩ := ht
      simp
    rw [← List.append_assoc, matched_concat, ih ((List.prefix_append t [a]).trans ht), advance,
      if_pos hlast, List.length_append, List.length_singleton]

theorem Finds.isInfix (H : Finds pat s) : pat <:+: s := by
  obtain ⟨p, hp, hlen⟩ := H
  obtain ⟨q, hq, -⟩ := matched_split pat p
  rw [hlen, List.take_length] at hq
  exact (List.IsSuffix.isInfix ⟨q, hq.symm⟩).trans hp.isInfix

/-! ## Patterns whose first symbol is unique -/

theorem advance_first (hfirst : first ∉ rest) (hi : 0 < i) :
    advance (first :: rest) i first = 0 := by
  refine if_neg fun h => hfirst ?_
  obtain ⟨i, rfl⟩ := Nat.exists_eq_add_of_le' hi
  rw [List.getElem?_cons_succ] at h
  exact List.mem_of_getElem? h

/-- At 0 the matcher passes over anything but the first symbol. -/
theorem matched_pass (hp : matched (first :: rest) p = 0) (ht : first ∉ t) :
    matched (first :: rest) (p ++ t) = 0 := by
  induction t using List.reverseRecOn with
  | nil => rwa [List.append_nil]
  | append_singleton t a ih =>
    have hne : first ≠ a := fun h => ht (by simp [h])
    rw [← List.append_assoc, matched_concat, ih fun h => ht (List.mem_append_left _ h)]
    exact if_neg fun h => hne (Option.some.inj h)

/-- An attempt that begins while another is matched is missed. -/
theorem matched_missed (hfirst : first ∉ rest) (hp : 0 < matched (first :: rest) p)
    (ht : t <+: first :: rest) (hne : t ≠ []) : matched (first :: rest) (p ++ t) = 0 := by
  rcases List.prefix_cons_iff.mp ht with rfl | ⟨t, rfl, hrest⟩
  · exact absurd rfl hne
  · rw [List.append_cons]
    apply matched_pass
    · rw [matched_concat, advance_first hfirst hp]
    · exact fun h => hfirst (hrest.subset h)

theorem Attempts.matched_iff (hfirst : first ∉ rest) (H : Attempts (first :: rest) p n) :
    matched (first :: rest) p = 0 ↔ Even n := by
  induction H with
  | @start p hnone =>
    obtain ⟨q, hq, -⟩ := matched_split (first :: rest) p
    have hnil := hnone _ (List.take_prefix _ _) ⟨q, hq.symm⟩
    simpa using hnil
  | @next p t n _ ht hne ih =>
    rw [Nat.even_add_one, ← ih]
    rcases Nat.eq_zero_or_pos (matched (first :: rest) p) with hp | hp
    · rw [matched_attempt hp ht]
      simp [hp, hne]
    · rw [matched_missed hfirst hp ht hne]
      simp [Nat.ne_of_gt hp]

omit [DecidableEq α] in
theorem exists_attempts (pat p : List α) : ∃ n, Attempts pat p n := by
  by_cases h : ∀ t, t <+: pat → t <:+ p → t = []
  · exact ⟨0, .start h⟩
  · push Not at h
    obtain ⟨t, ht, ⟨q, rfl⟩, hne⟩ := h
    have hlt : q.length < (q ++ t).length := by
      have := List.length_pos_iff.mpr hne
      rw [List.length_append]
      omega
    obtain ⟨n, hn⟩ := exists_attempts pat q
    exact ⟨n + 1, hn.next ht hne⟩
termination_by p.length

omit [DecidableEq α] in
/-- Symbols without the first one are no attempt. -/
theorem Attempts.of_not_mem (h : first ∉ s) : Attempts (first :: rest) s 0 := by
  refine .start fun t ht hsuffix => ?_
  rcases List.prefix_cons_iff.mp ht with rfl | ⟨t, rfl, -⟩
  · rfl
  · exact absurd (hsuffix.subset List.mem_cons_self) h

/-- **What the matcher finds**: the occurrences with an even number of attempts before them. -/
theorem finds_iff (hfirst : first ∉ rest) : Finds (first :: rest) s ↔
    ∃ p n, p ++ first :: rest <+: s ∧ Attempts (first :: rest) p n ∧ Even n := by
  constructor
  · rintro ⟨q, hq, hlen⟩
    obtain ⟨p, hsplit, hp⟩ := matched_split (first :: rest) q
    rw [hlen, List.take_length] at hsplit
    obtain ⟨n, hn⟩ := exists_attempts (first :: rest) p
    exact ⟨p, n, hsplit ▸ hq, hn, (hn.matched_iff hfirst).mp hp⟩
  · rintro ⟨p, n, hpre, hn, heven⟩
    have hp := (hn.matched_iff hfirst).mpr heven
    exact ⟨p ++ first :: rest, hpre, matched_attempt hp (List.prefix_refl _)⟩

/-- The pattern twice in a row is found, whatever comes before. -/
theorem finds_twice (hfirst : first ∉ rest)
    (h : p ++ first :: rest ++ first :: rest <+: s) : Finds (first :: rest) s := by
  obtain ⟨n, hn⟩ := exists_attempts (first :: rest) p
  by_cases heven : Even n
  · exact (finds_iff hfirst).mpr ⟨p, n, (List.prefix_append _ _).trans h, hn, heven⟩
  · have hnext := hn.next (List.prefix_refl _) (List.cons_ne_nil first rest)
    exact (finds_iff hfirst).mpr ⟨_, n + 1, h, hnext, Nat.even_add_one.mpr heven⟩

end Matching
