import Mathlib.Logic.Function.Basic

/-! # Memories that can only be cleared

A NOR memory is a function from addresses to cells. Programming conjoins a mask into it and
erasing fills a set of addresses with the blank cell. The operations a controller performs are
atomic, so a power cut leaves the memory that a prefix of them produces (`replay` of a `take`).
Nothing here fixes the addresses or the cells: the cells need an idempotent commutative `&&&` with
the blank cell as its unit. -/

namespace NorFlash

variable {α β : Type*} [AndOp β]

/-- Program the mask `m`: bits of a cell can only be cleared. -/
def program (f m : α → β) : α → β := fun a => f a &&& m a

/-- Fill the addresses in `S` with the blank cell. -/
def erase (blank : β) (S : α → Bool) (f : α → β) : α → β := fun a => if S a then blank else f a

/-- One atomic operation of the memory controller. -/
inductive Op (α β : Type*)
  | erase (S : α → Bool)
  | program (m : α → β)

def Op.apply (blank : β) : Op α β → (α → β) → α → β
  | .erase S, f => NorFlash.erase blank S f
  | .program m, f => NorFlash.program f m

/-- The memory after a list of operations, first one first. -/
def replay (blank : β) (ops : List (Op α β)) (f : α → β) : α → β :=
  ops.foldl (fun f o => o.apply blank f) f

variable {blank : β} {f m m' : α → β} {ops ops' : List (Op α β)} {a : α}

@[simp] theorem replay_nil : replay blank [] f = f := rfl

@[simp] theorem replay_cons {o : Op α β} :
    replay blank (o :: ops) f = replay blank ops (o.apply blank f) := rfl

theorem replay_append : replay blank (ops ++ ops') f = replay blank ops' (replay blank ops f) := by
  simp [replay]

theorem program_apply : program f m a = f a &&& m a := rfl

/-- An operation that leaves cell `a` as it is, whatever it holds. -/
def Op.Spares (blank : β) (a : α) : Op α β → Prop
  | .erase S => S a = false
  | .program m => m a = blank

section Laws
variable [Std.Associative (fun a b : β => a &&& b)]

/-- Two masks in a row are one mask. -/
theorem program_program : program (program f m) m' = program f (program m m') :=
  funext fun _ => @Std.Associative.assoc β (fun a b => a &&& b) _ _ _ _

end Laws

section Unit
variable [Std.LawfulIdentity (fun a b : β => a &&& b) blank]

theorem and_blank (b : β) : b &&& blank = b :=
  @Std.LawfulRightIdentity.right_id β β (fun a b => a &&& b) _ _ b

theorem blank_and (b : β) : blank &&& b = b :=
  @Std.LawfulLeftIdentity.left_id β β (fun a b => a &&& b) _ _ b

/-- A cell the mask leaves alone keeps its value. -/
theorem program_spared (h : m a = blank) : program f m a = f a := by
  rw [program_apply, h, and_blank]

/-- A blank cell takes the mask's value. -/
theorem program_blank (h : f a = blank) : program f m a = m a := by
  rw [program_apply, h, blank_and]

theorem Op.apply_spared {o : Op α β} (h : o.Spares blank a) : o.apply blank f a = f a := by
  cases o with
  | erase S => simp only [Op.apply, NorFlash.erase]; rw [show S a = false from h]; rfl
  | program m => exact program_spared h

/-- A cell spared by every operation of a run keeps its value through the run. -/
theorem replay_spared (h : ∀ o ∈ ops, o.Spares blank a) : replay blank ops f a = f a := by
  induction ops generalizing f with
  | nil => rfl
  | cons o ops ih =>
    rw [replay_cons, ih fun o ho => h o (List.mem_cons_of_mem _ ho)]
    exact Op.apply_spared (h o List.mem_cons_self)

variable (blank f a) in
/-- What programming alone comes to. -/
theorem exists_replay_program [Std.Associative (fun a b : β => a &&& b)] (ms : List (α → β)) :
    ∃ b, replay blank (ms.map .program) f a = f a &&& b := by
  induction ms generalizing f with
  | nil => exact ⟨blank, (and_blank _).symm⟩
  | cons m ms ih =>
    obtain ⟨b, hb⟩ := ih (program f m)
    refine ⟨m a &&& b, ?_⟩
    rw [List.map_cons, replay_cons]
    exact hb.trans (@Std.Associative.assoc β (fun a b => a &&& b) _ _ _ _)

/-- A cell that comes out of programming as it was never changed in between. -/
theorem replay_program_take [Std.Associative (fun a b : β => a &&& b)]
    [Std.Commutative (fun a b : β => a &&& b)] [Std.IdempotentOp (fun a b : β => a &&& b)]
    {ms : List (α → β)} (h : replay blank (ms.map .program) f a = f a) (n : Nat) :
    replay blank ((ms.map Op.program).take n) f a = f a := by
  have hassoc := @Std.Associative.assoc β (fun a b => a &&& b) _
  have hcomm := @Std.Commutative.comm β (fun a b => a &&& b) _
  have hidem := @Std.IdempotentOp.idempotent β (fun a b => a &&& b) _
  rw [← List.take_append_drop n (ms.map Op.program), replay_append, ← List.map_drop] at h
  rw [← List.map_take] at h ⊢
  obtain ⟨y, hy⟩ := exists_replay_program blank f a (ms.take n)
  obtain ⟨z, hz⟩ := exists_replay_program blank (replay blank ((ms.take n).map .program) f) a
    (ms.drop n)
  rw [h, hy] at hz
  calc replay blank ((ms.take n).map .program) f a
      = f a &&& y := hy
    _ = f a &&& y &&& z &&& y := by rw [← hz]
    _ = f a &&& y &&& z := by rw [hassoc, hcomm z y, ← hassoc, hassoc (f a), hidem]
    _ = f a := hz.symm

end Unit

end NorFlash
