import Mathlib.Data.Option.Basic

/-! # Calls that may not return

A function one of whose calls may not return has its values in `Option`. `Refines` compares two
versions of a computation that differ in such a call, and `Yields` says that a computation returns
with a value that has a property; each has a rule for a sequence. -/

namespace Partial

variable {α β : Type*} {o o' e e' : Option α} {k k' : α → Option β} {P : α → Prop} {Q : β → Prop}

/-- Where `o` returns, `o'` returns the same. -/
def Refines (o o' : Option α) : Prop := ∀ a, o = some a → o' = some a

theorem Refines.refl (o : Option α) : Refines o o := fun _ => id

theorem Refines.bind (ho : Refines o o') (hk : ∀ a, Refines (k a) (k' a)) :
    Refines (o.bind k) (o'.bind k') := by
  intro b h
  obtain ⟨a, ha, hb⟩ := Option.bind_eq_some_iff.mp h
  exact Option.bind_eq_some_iff.mpr ⟨a, ho a ha, hk a b hb⟩

theorem Refines.ite {c : Prop} [Decidable c] (ho : Refines o o') (he : Refines e e') :
    Refines (if c then o else e) (if c then o' else e') := by
  split
  · exact ho
  · exact he

/-- `o` returns, with a value that has the property `P`. -/
def Yields (o : Option α) (P : α → Prop) : Prop := ∃ a, o = some a ∧ P a

theorem Yields.some {a : α} (h : P a) : Yields (some a) P := ⟨a, rfl, h⟩

theorem Yields.bind (ho : Yields o P) (hk : ∀ a, P a → Yields (k a) Q) : Yields (o.bind k) Q := by
  obtain ⟨a, rfl, ha⟩ := ho
  exact hk a ha

end Partial
