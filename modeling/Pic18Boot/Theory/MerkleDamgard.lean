import Mathlib.Data.List.Induction
import Mathlib.Data.Nat.Notation
import Mathlib.Tactic.TypeStar

/-! # Hashing block by block

A message is cut into blocks of `B` symbols, and a compression function `f` carries a state over
them (`absorb`). A hash that is fed symbol by symbol keeps the state after the whole blocks and the
`residue` (`absorb_concat`). At the end the message is padded with a mark, filling and a field for
its length, which takes one block more or two (`absorb_pad`). As the field ends the last block,
equal results come from equal messages or from a collision of `f` between the two runs
(`exists_collision`). -/

namespace MerkleDamgard

variable {σ β : Type*}

/-- The whole blocks of a message. -/
def blocks (B : ℕ) (msg : List β) : List (List β) :=
  (List.range (msg.length / B)).map fun i => (msg.drop (B * i)).take B

/-- What follows the whole blocks. -/
def residue (B : ℕ) (msg : List β) : List β := msg.drop (B * (msg.length / B))

/-- The state after the whole blocks. -/
def absorb (f : σ → List β → σ) (B : ℕ) (s : σ) (msg : List β) : σ := (blocks B msg).foldl f s

/-- The arguments of `f` in a run over `bs`. -/
def arguments (f : σ → List β → σ) : σ → List (List β) → List (σ × List β)
  | _, [] => []
  | s, b :: bs => (s, b) :: arguments f (f s b) bs

variable {f : σ → List β → σ} {B : ℕ} {s : σ} {msg l r : List β} {b : β} {bs : List (List β)}

/-! ### Blocks -/

theorem blocks_append (hB : 0 < B) (h : B ∣ l.length) :
    blocks B (l ++ r) = blocks B l ++ blocks B r := by
  obtain ⟨n, hn⟩ := h
  rw [blocks, blocks, blocks, List.length_append, hn, Nat.mul_add_div hB,
    Nat.mul_div_cancel_left n hB, List.range_add, List.map_append, List.map_map]
  congr 1
  · refine List.map_congr_left fun i hi => ?_
    have hi : B * (i + 1) ≤ B * n := Nat.mul_le_mul_left B (List.mem_range.mp hi)
    rw [Nat.mul_succ] at hi
    rw [List.drop_append_of_le_length (by omega), List.take_append_of_le_length]
    rw [List.length_drop]
    omega
  · refine List.map_congr_left fun i _ => ?_
    rw [Function.comp_apply, Nat.mul_add, ← hn, List.drop_append, List.drop_eq_nil_of_le (by omega),
      List.nil_append, Nat.add_sub_cancel_left]

theorem blocks_of_lt (h : msg.length < B) : blocks B msg = [] := by
  rw [blocks, Nat.div_eq_of_lt h, List.range_zero, List.map_nil]

theorem blocks_of_eq (hB : 0 < B) (h : msg.length = B) : blocks B msg = [msg] := by
  rw [blocks, h, Nat.div_self hB, List.range_one, List.map_singleton, Nat.mul_zero, List.drop_zero,
    ← h, List.take_length]

theorem length_residue (B : ℕ) (msg : List β) : (residue B msg).length = msg.length % B := by
  rw [residue, List.length_drop]
  have := Nat.div_add_mod msg.length B
  omega

/-- The message without its residue is made of whole blocks. -/
theorem exists_whole (B : ℕ) (msg : List β) :
    ∃ whole, msg = whole ++ residue B msg ∧ whole.length = B * (msg.length / B) := by
  refine ⟨msg.take (B * (msg.length / B)), (List.take_append_drop ..).symm, ?_⟩
  rw [List.length_take, Nat.min_eq_left (Nat.mul_div_le ..)]

theorem absorb_append (hB : 0 < B) (h : B ∣ l.length) :
    absorb f B s (l ++ r) = absorb f B (absorb f B s l) r := by
  rw [absorb, blocks_append hB h, List.foldl_append]
  rfl

theorem absorb_of_lt (h : msg.length < B) : absorb f B s msg = s := by
  rw [absorb, blocks_of_lt h]
  rfl

theorem absorb_of_eq (hB : 0 < B) (h : msg.length = B) : absorb f B s msg = f s msg := by
  rw [absorb, blocks_of_eq hB h]
  rfl

/-- More symbols go on from the residue. -/
theorem absorb_residue (hB : 0 < B) :
    absorb f B s (msg ++ r) = absorb f B (absorb f B s msg) (residue B msg ++ r) := by
  obtain ⟨whole, hmsg, hlen⟩ := exists_whole B msg
  have hdvd : B ∣ whole.length := ⟨_, hlen⟩
  have hres : (residue B msg).length < B := by
    rw [length_residue]
    exact Nat.mod_lt _ hB
  have hwhole : absorb f B s msg = absorb f B s whole := by
    conv_lhs => rw [hmsg, absorb_append hB hdvd, absorb_of_lt hres]
  conv_lhs => rw [hmsg, List.append_assoc, absorb_append hB hdvd]
  rw [hwhole]

theorem residue_append (hB : 0 < B) (h : B ∣ l.length) : residue B (l ++ r) = residue B r := by
  obtain ⟨n, hn⟩ := h
  rw [residue, List.length_append, hn, Nat.mul_add_div hB, Nat.mul_add, ← hn, List.drop_append,
    List.drop_eq_nil_of_le (by omega), List.nil_append, Nat.add_sub_cancel_left, residue]

theorem residue_of_lt (h : msg.length < B) : residue B msg = msg := by
  rw [residue, Nat.div_eq_of_lt h, Nat.mul_zero, List.drop_zero]

theorem residue_residue (hB : 0 < B) :
    residue B (msg ++ r) = residue B (residue B msg ++ r) := by
  obtain ⟨whole, hmsg, hlen⟩ := exists_whole B msg
  conv_lhs => rw [hmsg, List.append_assoc, residue_append hB ⟨_, hlen⟩]

/-- **One symbol more**: it is kept with the residue until they fill a block. -/
theorem absorb_concat (hB : 0 < B) (f : σ → List β → σ) (s : σ) (msg : List β) (b : β) :
    (msg.length % B + 1 < B ∧ absorb f B s (msg ++ [b]) = absorb f B s msg ∧
        residue B (msg ++ [b]) = residue B msg ++ [b]) ∨
      (msg.length % B + 1 = B ∧
        absorb f B s (msg ++ [b]) = f (absorb f B s msg) (residue B msg ++ [b]) ∧
        residue B (msg ++ [b]) = []) := by
  have hlen : (residue B msg ++ [b]).length = msg.length % B + 1 := by
    rw [List.length_append, length_residue, List.length_singleton]
  have hmod := Nat.mod_lt msg.length hB
  rw [absorb_residue hB, residue_residue hB]
  rcases Nat.lt_or_eq_of_le (Nat.succ_le_of_lt hmod) with h | h
  · exact .inl ⟨h, absorb_of_lt (by omega), residue_of_lt (by omega)⟩
  · refine .inr ⟨h, absorb_of_eq hB (by omega), List.eq_nil_of_length_eq_zero ?_⟩
    rw [length_residue, hlen, ← Nat.succ_eq_add_one, h, Nat.mod_self]

/-! ### Padding -/

/-- What closes a message: a mark, filling, and a field for its length. -/
structure Padding (β : Type*) where
  mark : β
  fill : β
  width : ℕ
  field : ℕ → List β
  length_field : ∀ n, (field n).length = width

variable (P : Padding β)

/-- The message padded to whole blocks. -/
def Padding.pad (B : ℕ) (msg : List β) : List β :=
  msg ++ (P.mark :: List.replicate ((B - (msg.length + 1 + P.width) % B) % B) P.fill) ++
    P.field msg.length

theorem Padding.length_pad (hB : 0 < B) (msg : List β) : B ∣ (P.pad B msg).length := by
  have hlen : (P.pad B msg).length = msg.length + 1 + P.width +
      (B - (msg.length + 1 + P.width) % B) % B := by
    simp only [pad, List.length_append, List.length_cons, List.length_replicate, P.length_field]
    omega
  generalize msg.length + 1 + P.width = n at hlen
  rw [hlen, Nat.dvd_iff_mod_eq_zero, Nat.add_mod, Nat.mod_mod, ← Nat.add_mod]
  have hmod := Nat.mod_lt n hB
  have hsum : n + (B - n % B) = B * (n / B + 1) := by
    have := Nat.div_add_mod n B
    rw [Nat.mul_succ]
    omega
  rw [hsum, Nat.mul_mod_right]

/-- **Padding** takes one block where the mark and the field fit behind the residue, and two where
they do not. -/
theorem Padding.absorb_pad (hwidth : P.width < B) : absorb f B s (P.pad B msg) =
    if msg.length % B + P.width < B then
      f (absorb f B s msg) (residue B msg ++
        P.mark :: List.replicate (B - P.width - (msg.length % B + 1)) P.fill ++ P.field msg.length)
    else
      f (f (absorb f B s msg)
        (residue B msg ++ P.mark :: List.replicate (B - (msg.length % B + 1)) P.fill))
        (List.replicate (B - P.width) P.fill ++ P.field msg.length) := by
  have hB : 0 < B := Nat.zero_lt_of_lt hwidth
  have hmod := Nat.mod_lt msg.length hB
  have hres := length_residue B msg
  have hfield := P.length_field msg.length
  have hsplit := Nat.div_add_mod msg.length B
  rw [pad, List.append_assoc, absorb_residue hB]
  split
  · next h =>
    have hfill : (B - (msg.length + 1 + P.width) % B) % B =
        B - P.width - (msg.length % B + 1) := by
      rw [show msg.length + 1 + P.width = B * (msg.length / B) + (msg.length % B + 1 + P.width) by
        omega, Nat.mul_add_mod]
      rcases Nat.lt_or_eq_of_le (Nat.succ_le_of_lt h) with h | h
      · rw [Nat.mod_eq_of_lt (a := _ + 1 + _) (by omega), Nat.mod_eq_of_lt (by omega)]
        omega
      · rw [show msg.length % B + 1 + P.width = B by omega, Nat.mod_self, Nat.sub_zero,
          Nat.mod_self]
        omega
    rw [hfill, ← List.append_assoc]
    refine absorb_of_eq hB ?_
    simp only [List.length_append, List.length_cons, List.length_replicate, hres, hfield]
    omega
  · next h =>
    have hfill : (B - (msg.length + 1 + P.width) % B) % B =
        B - (msg.length % B + 1) + (B - P.width) := by
      rw [show msg.length + 1 + P.width =
          B * (msg.length / B + 1) + (msg.length % B + 1 + P.width - B) by rw [Nat.mul_succ]; omega,
        Nat.mul_add_mod, Nat.mod_eq_of_lt (a := _ - B) (by omega), Nat.mod_eq_of_lt (by omega)]
      omega
    have hfirst : (residue B msg ++
        P.mark :: List.replicate (B - (msg.length % B + 1)) P.fill).length = B := by
      simp only [List.length_append, List.length_cons, List.length_replicate, hres]
      omega
    have hlast : (List.replicate (B - P.width) P.fill ++ P.field msg.length).length = B := by
      simp only [List.length_append, List.length_replicate, hfield]
      omega
    rw [hfill, ← List.replicate_append_replicate, ← List.cons_append, List.append_assoc,
      ← List.append_assoc,
      absorb_append hB ⟨1, by omega⟩, absorb_of_eq hB hfirst, absorb_of_eq hB hlast]

/-! ### Collisions -/

theorem arguments_concat {a : List β} :
    arguments f s (bs ++ [a]) = arguments f s bs ++ [(bs.foldl f s, a)] := by
  induction bs generalizing s with
  | nil => rfl
  | cons c bs ih => rw [List.cons_append, arguments, ih]; rfl

/-- Two arguments of `f` with one value, one from each run. -/
def Collision (f : σ → List β → σ) (s : σ) (bs bs' : List (List β)) : Prop :=
  ∃ a ∈ arguments f s bs, ∃ a' ∈ arguments f s bs', a ≠ a' ∧ f a.1 a.2 = f a'.1 a'.2

theorem Collision.concat {bs bs' : List (List β)} {a a' : List β} (h : Collision f s bs bs') :
    Collision f s (bs ++ [a]) (bs' ++ [a']) := by
  obtain ⟨x, hx, x', hx', hne, heq⟩ := h
  refine ⟨x, ?_, x', ?_, hne, heq⟩
  · rw [arguments_concat]
    exact List.mem_append_left _ hx
  · rw [arguments_concat]
    exact List.mem_append_left _ hx'

/-- Runs of one length with one result are over the same blocks, or collide. -/
theorem eq_or_collision {bs' : List (List β)} (hlen : bs.length = bs'.length)
    (h : bs.foldl f s = bs'.foldl f s) : bs = bs' ∨ Collision f s bs bs' := by
  induction bs using List.reverseRecOn generalizing bs' with
  | nil => exact .inl (List.eq_nil_of_length_eq_zero hlen.symm).symm
  | append_singleton bs a ih =>
    rcases List.eq_nil_or_concat bs' with rfl | ⟨bs', a', rfl⟩
    · simp at hlen
    rw [List.concat_eq_append] at hlen h ⊢
    rw [List.foldl_append, List.foldl_append] at h
    by_cases heq : (bs.foldl f s, a) = (bs'.foldl f s, a')
    · obtain ⟨hstate, rfl⟩ := Prod.mk.inj heq
      rcases ih (by simpa using hlen) hstate with rfl | hc
      · exact .inl rfl
      · exact .inr hc.concat
    · refine .inr ⟨_, ?_, _, ?_, heq, h⟩
      all_goals
        rw [arguments_concat]
        exact List.mem_append_right _ (List.mem_singleton.mpr rfl)

/-- Runs whose last blocks differ collide there. -/
theorem collision_of_last {bs' : List (List β)} {a a' : List β} (hne : a ≠ a')
    (h : (bs ++ [a]).foldl f s = (bs' ++ [a']).foldl f s) :
    Collision f s (bs ++ [a]) (bs' ++ [a']) := by
  rw [List.foldl_append, List.foldl_append] at h
  refine ⟨_, ?_, _, ?_, fun heq => hne (Prod.mk.inj heq).2, h⟩
  all_goals
    rw [arguments_concat]
    exact List.mem_append_right _ (List.mem_singleton.mpr rfl)

theorem flatten_blocks (hB : 0 < B) (h : B ∣ l.length) : (blocks B l).flatten = l := by
  obtain ⟨n, hn⟩ := h
  induction n generalizing l with
  | zero =>
    obtain rfl := List.eq_nil_of_length_eq_zero hn
    rw [blocks_of_lt (by simpa using hB)]
    rfl
  | succ n ih =>
    rw [Nat.mul_succ] at hn
    have htake : (l.take B).length = B := by rw [List.length_take]; omega
    conv_lhs => rw [← List.take_append_drop B l]
    rw [blocks_append hB ⟨1, by omega⟩, blocks_of_eq hB htake, List.flatten_append,
      ih (by rw [List.length_drop]; omega), List.flatten_singleton, List.take_append_drop]

/-- The last block of a padded message ends in its field. -/
theorem Padding.blocks_pad (hwidth : P.width < B) (msg : List β) : ∃ bs front,
    blocks B (P.pad B msg) = bs ++ [front ++ P.field msg.length] := by
  have hB : 0 < B := Nat.zero_lt_of_lt hwidth
  obtain ⟨n, hn⟩ := P.length_pad hB msg
  have hfield := P.length_field msg.length
  have hpos : 0 < n := by
    refine Nat.pos_of_ne_zero fun h0 => ?_
    rw [h0, pad] at hn
    simp at hn
  obtain ⟨m, rfl⟩ := Nat.exists_eq_add_of_le' hpos
  rw [Nat.mul_succ] at hn
  -- the message and the filling up to the last block, and from there to the field
  obtain ⟨body, hbody⟩ : ∃ body, P.pad B msg = body ++ P.field msg.length := ⟨_, rfl⟩
  have hlen : body.length + P.width = B * m + B := by
    rw [← hn, hbody, List.length_append, hfield]
  have htake : (body.take (B * m)).length = B * m := by rw [List.length_take]; omega
  have hlast : (body.drop (B * m) ++ P.field msg.length).length = B := by
    rw [List.length_append, List.length_drop, hfield]
    omega
  refine ⟨blocks B (body.take (B * m)), body.drop (B * m), ?_⟩
  conv_lhs => rw [hbody, ← List.take_append_drop (B * m) body, List.append_assoc]
  rw [blocks_append hB ⟨m, htake⟩, blocks_of_eq hB hlast]

/-- **Equal results come from equal messages or from a collision**, between messages whose fields
tell their lengths apart. -/
theorem Padding.exists_collision {msg' : List β} (hwidth : P.width < B)
    (hfield : P.field msg.length = P.field msg'.length → msg.length = msg'.length)
    (h : absorb f B s (P.pad B msg) = absorb f B s (P.pad B msg')) :
    msg = msg' ∨ Collision f s (blocks B (P.pad B msg)) (blocks B (P.pad B msg')) := by
  have hB : 0 < B := Nat.zero_lt_of_lt hwidth
  by_cases hlen : msg.length = msg'.length
  · have hpad : (P.pad B msg).length = (P.pad B msg').length := by
      simp only [pad, List.length_append, List.length_cons, List.length_replicate, P.length_field,
        hlen]
    refine (eq_or_collision ?_ h).imp_left fun hblocks => ?_
    · simp only [blocks, List.length_map, List.length_range, hpad]
    · have := congrArg List.flatten hblocks
      rw [flatten_blocks hB (P.length_pad hB _), flatten_blocks hB (P.length_pad hB _), pad, pad,
        List.append_assoc, List.append_assoc] at this
      exact (List.append_inj this hlen).1
  · right
    obtain ⟨bs, front, hbs⟩ := P.blocks_pad hwidth msg
    obtain ⟨bs', front', hbs'⟩ := P.blocks_pad hwidth msg'
    rw [absorb, absorb, hbs, hbs'] at h
    rw [hbs, hbs']
    refine collision_of_last (fun heq => hlen (hfield ?_)) h
    exact List.append_inj_right' heq (by rw [P.length_field, P.length_field])

end MerkleDamgard
