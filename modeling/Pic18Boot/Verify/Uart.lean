import Pic18Boot.Theory.Matching
import Pic18Boot.Theory.Transition
import Pic18Boot.Model.Uart
import Pic18Boot.Model.Handshake

/-! # When `uart_expect_msg` recognizes the message

The loop is a matcher that starts over at a mismatch (`uartExpectLoop_iff`), over the bytes of all
polls but the last. So it misses a message that comes directly after a truncated one
(`uart_expect_msg_iff`), and so does the device of the handshake (`expected_iff`). -/

namespace Pic18Boot
open Matching Transition

/-- The bytes of the first `n` polls. -/
def polled (poll : Nat → Option UInt8) (n : Nat) : List UInt8 := (List.range n).filterMap poll

variable {poll : Nat → Option UInt8} {msg p : List UInt8} {first : UInt8} {rest : List UInt8}
  {n t i len timeoutUs : Nat}

theorem polled_succ : polled poll (n + 1) = polled poll n ++ (poll n).toList := by
  rw [polled, List.range_succ, List.filterMap_append]
  cases hbyte : poll n with
  | none => simp [polled, hbyte]
  | some byte => simp [polled, hbyte]

theorem polled_prefix (h : t ≤ n) : polled poll t <+: polled poll n := by
  obtain ⟨m, rfl⟩ := Nat.exists_eq_add_of_le h
  rw [polled, polled, List.range_add, List.filterMap_append]
  exact List.prefix_append _ _

/-- What comes first of the bytes polled is what was polled first. -/
theorem exists_polled (h : p <+: polled poll n) : ∃ t ≤ n, p = polled poll t := by
  induction n with
  | zero => exact ⟨0, Nat.le_refl 0, List.prefix_nil.mp h⟩
  | succ n ih =>
    rw [polled_succ] at h
    cases hbyte : poll n with
    | none =>
      rw [hbyte, Option.toList_none, List.append_nil] at h
      obtain ⟨t, ht, rfl⟩ := ih h
      exact ⟨t, Nat.le_succ_of_le ht, rfl⟩
    | some b =>
      rw [hbyte, Option.toList_some] at h
      rcases List.prefix_concat_iff.mp h with rfl | h
      · refine ⟨n + 1, Nat.le_refl _, ?_⟩
        rw [polled_succ, hbyte, Option.toList_some]
      · obtain ⟨t, ht, rfl⟩ := ih h
        exact ⟨t, Nat.le_succ_of_le ht, rfl⟩

/-- One poll, as the matcher sees it. -/
theorem matched_polled (poll : Nat → Option UInt8) (msg : List UInt8) (t : Nat) :
    matched msg (polled poll (t + 1)) =
    match poll t with
    | some byte => advance msg (matched msg (polled poll t)) byte
    | none => matched msg (polled poll t) := by
  rw [polled_succ]
  cases poll t with
  | none => rw [Option.toList_none, List.append_nil]
  | some byte => rw [Option.toList_some, matched_concat]

theorem uartGetByte_one : uartGetByte poll 1 t = (poll t, t + 1) := by
  unfold uartGetByte
  cases poll t with
  | none => rfl
  | some byte => rfl

theorem uartExpectLoop_cases {passes : Nat} :
    uartExpectLoop poll msg passes t i len = 0 ∨ uartExpectLoop poll msg passes t i len = -1 := by
  induction passes generalizing t i len with
  | zero => exact .inr rfl
  | succ passes ih =>
    rw [uartExpectLoop]
    split
    · exact .inl rfl
    · dsimp only
      split
      · exact .inr rfl
      · split
        · split
          · exact ih
          · exact ih
        · exact ih

/-- **The loop is the matcher**: with `n` polls before the last, it succeeds if the matcher has the
whole message after one of these. -/
theorem uartExpectLoop_iff (hi : matched msg (polled poll t) = i) (hlen : i + len = msg.length) :
    uartExpectLoop poll msg (n + 1) t i len = 0 ↔
      ∃ u, t ≤ u ∧ u ≤ t + n ∧ matched msg (polled poll u) = msg.length := by
  induction n generalizing t i len with
  | zero =>
    rw [uartExpectLoop]
    split
    · exact iff_of_true rfl ⟨t, Nat.le_refl t, Nat.le_refl t, by omega⟩
    · refine iff_of_false (by simp) ?_
      rintro ⟨u, hle, hge, hu⟩
      obtain rfl : u = t := by omega
      omega
  | succ n ih =>
    rw [uartExpectLoop]
    split
    · exact iff_of_true rfl ⟨t, Nat.le_refl t, Nat.le_add_right t _, by omega⟩
    · next hne =>
      have hlater : (∃ u, t ≤ u ∧ u ≤ t + (n + 1) ∧ matched msg (polled poll u) = msg.length) ↔
          ∃ u, t + 1 ≤ u ∧ u ≤ t + 1 + n ∧ matched msg (polled poll u) = msg.length := by
        constructor
        · rintro ⟨u, hle, hge, hu⟩
          have hut : u ≠ t := by
            rintro rfl
            omega
          exact ⟨u, by omega, by omega, hu⟩
        · rintro ⟨u, hle, hge, hu⟩
          exact ⟨u, by omega, by omega, hu⟩
      have hnext := matched_polled poll msg t
      rw [hlater, if_neg (Nat.succ_ne_zero n), uartGetByte_one]
      dsimp only
      cases hbyte : poll t with
      | none =>
        rw [hbyte] at hnext
        exact ih (hnext.trans hi) hlen
      | some byte =>
        simp only [hbyte, hi, advance] at hnext
        dsimp only
        split
        · next heq =>
          rw [if_pos heq] at hnext
          exact ih hnext (by omega)
        · next hmis =>
          rw [if_neg hmis] at hnext
          exact ih hnext (Nat.zero_add _)

/-- A timeout of `T` leaves `T - 1` polls whose bytes are used. -/
theorem uartExpectMsg_finds (hT : 1 ≤ timeoutUs) :
    uartExpectMsg poll msg timeoutUs = 0 ↔ Finds msg (polled poll (timeoutUs - 1)) := by
  obtain ⟨n, rfl⟩ := Nat.exists_eq_add_of_le' hT
  have hstart : matched msg (polled poll 0) = 0 := rfl
  rw [uartExpectMsg, if_neg (Nat.succ_ne_zero n), uartExpectLoop_iff hstart (Nat.zero_add _),
    Nat.add_sub_cancel]
  constructor
  · rintro ⟨u, -, hu, hmatched⟩
    exact ⟨polled poll u, polled_prefix (by omega), hmatched⟩
  · rintro ⟨p, hp, hmatched⟩
    obtain ⟨u, hu, rfl⟩ := exists_polled hp
    exact ⟨u, Nat.zero_le u, by omega, hmatched⟩

/-- **The message is recognized** wherever it is, exactly if one of its occurrences has an even
number of attempts at it directly before it. -/
theorem uart_expect_msg_iff (poll : Nat → Option UInt8) (first : UInt8) (rest : List UInt8)
    (timeoutUs : Nat) (hfirst : first ∉ rest) (hT : 1 ≤ timeoutUs) :
    ((uartExpectMsg poll (first :: rest) timeoutUs = 0 ↔
        first :: rest <:+: polled poll (timeoutUs - 1)) ∧
      (¬ first :: rest <:+: polled poll (timeoutUs - 1) →
        uartExpectMsg poll (first :: rest) timeoutUs = -1)) ↔
    (first :: rest <:+: polled poll (timeoutUs - 1) →
      ∃ p n, p ++ first :: rest <+: polled poll (timeoutUs - 1) ∧
        Attempts (first :: rest) p n ∧ Even n) := by
  have hfinds : uartExpectMsg poll (first :: rest) timeoutUs = 0 ↔
      Finds (first :: rest) (polled poll (timeoutUs - 1)) := uartExpectMsg_finds hT
  rw [← finds_iff hfirst, hfinds]
  constructor
  · intro h hin
    exact h.1.mpr hin
  · intro h
    refine ⟨⟨Finds.isInfix, h⟩, fun hout => ?_⟩
    exact uartExpectLoop_cases.resolve_left fun h0 => hout (hfinds.mp h0).isInfix

/-- A host that retries at once is heard, whatever was received before. -/
theorem uart_expect_msg_retry (hfirst : first ∉ rest) (hT : 1 ≤ timeoutUs)
    (h : p ++ first :: rest ++ first :: rest <+: polled poll (timeoutUs - 1)) :
    uartExpectMsg poll (first :: rest) timeoutUs = 0 :=
  (uartExpectMsg_finds hT).mpr (finds_twice hfirst h)

/-- The polls that find the bytes one after the other. -/
def pollsOf (bytes : List UInt8) (t : Nat) : Option UInt8 := bytes[t]?

/-- Noise before the message. -/
theorem noisy_handshake_expected :
    uartExpectMsg (pollsOf (0x4C :: hostHandshakeMsg)) hostHandshakeMsg 10 = 0 := by
  have hiff := uart_expect_msg_iff (pollsOf (0x4C :: hostHandshakeMsg)) hostMsgStart
    [0x42, 0x54, 0x4C, hostMsgEnd] 10 (by decide) (by decide)
  refine (hiff.mpr fun _ => ⟨[0x4C], 0, ?_, .of_not_mem (by decide), Even.zero⟩).1.mpr ?_
  · decide
  · decide

/-- The message after its own first byte. -/
theorem repeated_start_missed :
    hostHandshakeMsg <:+: polled (pollsOf (hostMsgStart :: hostHandshakeMsg)) 6 ∧
      uartExpectMsg (pollsOf (hostMsgStart :: hostHandshakeMsg)) hostHandshakeMsg 7 = -1 := by
  decide

/-! ## The device of the handshake -/

variable {uECCVerify : List UInt8 → List UInt8 → List UInt8 → Bool} {L : Layout} {c : Handshake}
  {b : UInt8} {fifo : List UInt8}

/-- `c` after `n` bytes that `uart_expect_msg` reads. -/
abbrev expects (uECCVerify : List UInt8 → List UInt8 → List UInt8 → Bool) (L : Layout) (n : Nat)
    (c : Handshake) : Option Handshake :=
  exec (Handshake.step uECCVerify L) (fun _ _ => True) (List.replicate n .expect) c

theorem expects_succ : expects uECCVerify L (n + 1) c =
    c.expect.bind (expects uECCVerify L n) := by
  rw [expects, List.replicate_succ, exec, if_pos trivial]
  rfl

/-- In the handshake a byte advances the same matcher. -/
theorem expect_matched (hdev : c.device = .listening (matched hostHandshakeMsg p))
    (hfifo : c.fifo = b :: fifo) : c.expect =
      if matched hostHandshakeMsg (p ++ [b]) = hostHandshakeMsg.length then
        some { c with device := .expected, fifo := fifo, session := c.session + 1, decoded := 0 }
      else
        some { c with
          device := .listening (matched hostHandshakeMsg (p ++ [b])), fifo := fifo } := by
  rw [Handshake.expect, hdev, hfifo, matched_concat]
  rfl

/-- A device that still listens has a byte to read. -/
theorem exists_expects (hdev : c.device = .listening i) :
    (∃ n c', expects uECCVerify L n c = some c' ∧ c'.device = .expected) ↔
      ∃ n c', c.expect.bind (expects uECCVerify L n) = some c' ∧ c'.device = .expected := by
  constructor
  · rintro ⟨n, c', hrun, hexp⟩
    cases n with
    | zero =>
      cases hrun
      cases hdev.symm.trans hexp
    | succ n => exact ⟨n, c', expects_succ.symm.trans hrun, hexp⟩
  · rintro ⟨n, c', hrun, hexp⟩
    exact ⟨n + 1, c', expects_succ.trans hrun, hexp⟩

theorem expects_iff (hdev : c.device = .listening (matched hostHandshakeMsg p))
    (hne : matched hostHandshakeMsg p ≠ hostHandshakeMsg.length) :
    (∃ n c', expects uECCVerify L n c = some c' ∧ c'.device = .expected) ↔
      ∃ q, q <+: c.fifo ∧ matched hostHandshakeMsg (p ++ q) = hostHandshakeMsg.length := by
  rw [exists_expects hdev]
  induction hfifo : c.fifo generalizing c p with
  | nil =>
    rw [Handshake.expect, hdev, hfifo]
    refine iff_of_false nofun ?_
    rintro ⟨q, hq, hmatched⟩
    rw [List.prefix_nil.mp hq, List.append_nil] at hmatched
    exact hne hmatched
  | cons b fifo ih =>
    rw [expect_matched hdev hfifo]
    split
    · next hall => exact iff_of_true ⟨0, _, rfl, rfl⟩ ⟨[b], List.prefix_append [b] fifo, hall⟩
    · next hmore =>
      refine Iff.trans ((exists_expects rfl).trans (ih rfl hmore rfl)) ?_
      constructor
      · rintro ⟨q, hq, hmatched⟩
        rw [List.append_assoc] at hmatched
        exact ⟨b :: q, List.cons_prefix_cons.mpr ⟨rfl, hq⟩, hmatched⟩
      · rintro ⟨q, hq, hmatched⟩
        rcases List.prefix_cons_iff.mp hq with rfl | ⟨q, rfl, hq'⟩
        · rw [List.append_nil] at hmatched
          exact absurd hmatched hne
        · rw [List.append_cons] at hmatched
          exact ⟨q, hq', hmatched⟩

/-- **The device gets the handshake message** from what it has received exactly if
`uart_expect_msg` returns 0 on these bytes. -/
theorem expected_iff (hdev : c.device = .listening 0) (hT : 1 ≤ timeoutUs)
    (hfifo : c.fifo = polled poll (timeoutUs - 1)) :
    (∃ n c', expects uECCVerify L n c = some c' ∧ c'.device = .expected) ↔
      uartExpectMsg poll hostHandshakeMsg timeoutUs = 0 := by
  rw [uartExpectMsg_finds hT, ← hfifo]
  exact expects_iff (p := []) hdev (by decide)

end Pic18Boot
