import Mathlib.Algebra.Group.Nat.Defs
import Mathlib.Data.Int.Notation

/-! # `uart_expect_msg`

The part of `uart.c` that reads with a timeout. `poll t` is what look number `t` at `RC1IF` finds:
the byte of `RCREG1` if the flag is set, and nothing else decides what the functions do. -/

namespace Pic18Boot

/-- `uart_get_byte(byte, timeout_us, false)` from look `t` on: the byte it returns 0 with, if there
is one, and the next look. -/
def uartGetByte (poll : Nat → Option UInt8) : Nat → Nat → Option UInt8 × Nat
  | 0, t => (none, t)
  | timeoutUs + 1, t =>
    match poll t with
    | none => uartGetByte poll timeoutUs (t + 1)
    | some byte => (some byte, t + 1)

/-- The loop of `uart_expect_msg` with `passes` left before the timeout; `i` and `len` are its
variables, and `_len` is the length of `msg`. -/
def uartExpectLoop (poll : Nat → Option UInt8) (msg : List UInt8) : Nat → Nat → Nat → Nat → Int
  | 0, _, _, _ => -1
  | passes + 1, t, i, len =>
    if len = 0 then 0
    else
      let ret := uartGetByte poll 1 t
      -- the countdown is tested before the byte is used
      if passes = 0 then -1
      else
        match ret.1 with
        | some byte =>
          if msg[i]? = some byte then uartExpectLoop poll msg passes ret.2 (i + 1) (len - 1)
          else uartExpectLoop poll msg passes ret.2 0 msg.length
        | none => uartExpectLoop poll msg passes ret.2 i len

/-- `uart_expect_msg(msg, _len, timeout_us)`; a timeout of 0 wraps at the first pass. -/
def uartExpectMsg (poll : Nat → Option UInt8) (msg : List UInt8) (timeoutUs : Nat) : Int :=
  uartExpectLoop poll msg (if timeoutUs = 0 then 2 ^ 16 else timeoutUs) 0 0 msg.length

end Pic18Boot
