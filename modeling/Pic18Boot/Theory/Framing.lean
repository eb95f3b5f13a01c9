import Mathlib.Data.List.Induction

/-! # Frames with escaped bytes

A stream carries frames between a start and a stop mark; an escape mark makes the next symbol plain
content. `tokens` says of each symbol of a stream whether it was escaped, `Framed` which content a
stream has just completed, and `encode` writes one frame. -/

namespace Framing

/-- Three different marks. -/
structure Marks (α : Type*) where
  start : α
  stop : α
  esc : α
  start_ne_stop : start ≠ stop
  start_ne_esc : start ≠ esc
  stop_ne_esc : stop ≠ esc

/-- A symbol of the stream: unescaped, or after an escape mark. -/
inductive Token (α : Type*)
  | raw (b : α)
  | lit (b : α)

def Token.sym {α : Type*} : Token α → α
  | .raw b | .lit b => b

variable {α : Type*} [DecidableEq α] (M : Marks α)

/-- The tokens of a stream; the flag says that an escape mark stands before it. -/
def tokens : Bool → List α → List (Token α)
  | _, [] => []
  | true, b :: s => .lit b :: tokens false s
  | false, b :: s => if b = M.esc then tokens true s else .raw b :: tokens false s

/-- Whether the stream ends after an unescaped escape mark. -/
def pending : Bool → List α → Bool
  | e, [] => e
  | true, _ :: s => pending false s
  | false, b :: s => if b = M.esc then pending true s else pending false s

/-- The stream ends with an unescaped stop mark, and `content` is all that stands between it and the
last unescaped start mark, un-escaped. -/
def Framed (s content : List α) : Prop :=
  ∃ pre mid, tokens M false s = pre ++ .raw M.start :: (mid ++ [.raw M.stop]) ∧
    (∀ t ∈ mid, t ≠ .raw M.start ∧ t ≠ .raw M.stop) ∧ content = mid.map Token.sym

/-- The symbols that must be escaped. -/
def Special (c : α) : Prop := c = M.start ∨ c = M.stop ∨ c = M.esc

instance (c : α) : Decidable (Special M c) := inferInstanceAs (Decidable (_ ∨ _))

def escape (c : α) : List α := if Special M c then [M.esc, c] else [c]

def encode (content : List α) : List α := M.start :: (content.flatMap (escape M) ++ [M.stop])

variable {M} {e : Bool} {s s' content : List α} {b c : α}

theorem tokens_append :
    tokens M e (s ++ s') = tokens M e s ++ tokens M (pending M e s) s' := by
  induction s generalizing e with
  | nil => cases e <;> rfl
  | cons b s ih =>
    cases e
    · simp only [List.cons_append, tokens, pending]
      split
      · exact ih
      · rw [ih, List.cons_append]
    · simp only [List.cons_append, tokens, pending, ih]

theorem pending_append : pending M e (s ++ s') = pending M (pending M e s) s' := by
  induction s generalizing e with
  | nil => cases e <;> rfl
  | cons b s ih =>
    cases e
    · simp only [List.cons_append, pending]
      split <;> exact ih
    · exact ih

/-! ## One more symbol -/

theorem pending_esc (h : pending M e s = false) : pending M e (s ++ [M.esc]) = true := by
  rw [pending_append, h]
  exact if_pos rfl

theorem pending_snoc (h : pending M e s = true ∨ b ≠ M.esc) : pending M e (s ++ [b]) = false := by
  rw [pending_append]
  cases hp : pending M e s with
  | true => rfl
  | false => exact if_neg (h.resolve_left (by simp [hp]))

theorem tokens_esc (h : pending M e s = false) : tokens M e (s ++ [M.esc]) = tokens M e s := by
  rw [tokens_append, h, tokens, if_pos rfl]
  exact List.append_nil _

theorem tokens_lit (h : pending M e s = true) :
    tokens M e (s ++ [b]) = tokens M e s ++ [.lit b] := by
  rw [tokens_append, h]
  rfl

theorem tokens_raw (h : pending M e s = false) (hb : b ≠ M.esc) :
    tokens M e (s ++ [b]) = tokens M e s ++ [.raw b] := by
  rw [tokens_append, h, tokens, if_neg hb]
  rfl

/-! ## Encoding -/

/-- The token an encoded content symbol is read back as. -/
def contentToken (M : Marks α) (c : α) : Token α := if Special M c then .lit c else .raw c

theorem sym_contentToken : (contentToken M c).sym = c := by
  unfold contentToken
  split <;> rfl

theorem contentToken_ne : contentToken M c ≠ .raw M.start ∧ contentToken M c ≠ .raw M.stop := by
  unfold contentToken
  split
  · exact ⟨nofun, nofun⟩
  · next h =>
    exact ⟨fun h' => h (.inl (Token.raw.inj h')), fun h' => h (.inr (.inl (Token.raw.inj h')))⟩

theorem tokens_escape (h : pending M e s = false) :
    tokens M e (s ++ escape M c) = tokens M e s ++ [contentToken M c] ∧
      pending M e (s ++ escape M c) = false := by
  unfold escape contentToken
  split
  · have hesc := pending_esc h
    have hsplit : s ++ [M.esc, c] = (s ++ [M.esc]) ++ [c] := by simp
    rw [hsplit, tokens_lit hesc, tokens_esc h]
    exact ⟨rfl, pending_snoc (.inl hesc)⟩
  · next hc =>
    have hne : c ≠ M.esc := fun h' => hc (.inr (.inr h'))
    exact ⟨tokens_raw h hne, pending_snoc (.inr hne)⟩

theorem tokens_flatMap_escape (content : List α) (h : pending M e s = false) :
    tokens M e (s ++ content.flatMap (escape M)) = tokens M e s ++ content.map (contentToken M) ∧
      pending M e (s ++ content.flatMap (escape M)) = false := by
  induction content generalizing s with
  | nil => simpa using h
  | cons c content ih =>
    obtain ⟨htok, hpend⟩ := tokens_escape (c := c) h
    obtain ⟨htoks, hpends⟩ := ih hpend
    simp only [List.flatMap_cons, ← List.append_assoc, List.map_cons]
    rw [htoks, htok]
    exact ⟨by simp, hpends⟩

/-- What `encode` writes frames its content, whatever came before. -/
theorem framed_encode (h : pending M false s = false) :
    Framed M (s ++ encode M content) content := by
  have hstart := tokens_raw h M.start_ne_esc
  have hpend : pending M false (s ++ [M.start]) = false := pending_snoc (.inr M.start_ne_esc)
  obtain ⟨htok, hpend'⟩ := tokens_flatMap_escape content hpend
  refine ⟨tokens M false s, content.map (contentToken M), ?_, ?_, ?_⟩
  · have hsplit : s ++ encode M content =
        ((s ++ [M.start]) ++ content.flatMap (escape M)) ++ [M.stop] := by simp [encode]
    rw [hsplit, tokens_raw hpend' M.stop_ne_esc, htok, hstart]
    simp
  · intro t ht
    obtain ⟨c, -, rfl⟩ := List.mem_map.mp ht
    exact contentToken_ne
  · simp [sym_contentToken, Function.comp_def]

end Framing
