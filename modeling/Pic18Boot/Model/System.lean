import Pic18Boot.Theory.Dialogue
import Pic18Boot.Model.Host
import Pic18Boot.Model.Receive

/-! # The tool and the bootloader on one link

The flashing dialogue after the handshake, over a link that loses and reorders nothing. A read of
the tool that times out returns nothing and is repeated, so it is no step. -/

namespace Pic18Boot

def tool (C : HostCrypto) : Dialogue.Client Host UInt8 UInt8 where
  act := hostAct
  Waiting := Host.Waiting
  recv := hostRecv C

/-- The device reads while `fw_receive` runs; RAM may hold anything at each byte. -/
def bootloader (L : Layout) : Dialogue.Server Device Rcv UInt8 UInt8 where
  sym := Rcv.byte
  step d b := ((fwReceiveByte L d b).1, (fwReceiveByte L d b).2.sent)
  Live d := d.running = true
  dead d b h := by
    have hstop : fwReceiveByte L d b = (d, ⟨none, []⟩) := if_pos (by simpa using h)
    rw [hstop]

abbrev Link : Type := Dialogue.Config Host Device UInt8 UInt8

/-- The states of a flashing session of `file`, started on the hardware `s`. -/
def Flashing (C : HostCrypto) (L : Layout) (s : Nvm) (msg : Nat → UInt8) (file : List Line) :
    Link → Prop :=
  Dialogue.Reach (tool C) (bootloader L) (hostStart file) (sessionStart L s msg)

theorem bootloader_run {L : Layout} {d : Device} {rs : List Rcv} :
    (bootloader L).run d rs =
      ((deviceFeed L d rs).1, (deviceFeed L d rs).2.flatMap Reaction.sent) := by
  induction rs generalizing d with
  | nil => rfl
  | cons b rs ih =>
    rw [Dialogue.Server.run, ih]
    rfl

end Pic18Boot
