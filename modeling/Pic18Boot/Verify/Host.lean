import Pic18Boot.Model.System
import Pic18Boot.Verify.Receive

/-! # Steps of the flashing tool -/

namespace Pic18Boot
open Framing Dialogue

variable {C : HostCrypto} {v v' : HostVars} {line : Line} {h h' : Host} {out : List UInt8}

theorem lineData_length {count : Nat} {data : List UInt8} (hd : lineData line count = some data) :
    data.length = count := by
  have hmap := congrArg List.length (List.mapM_eq_some_iff.mp hd)
  simpa using hmap.symm

/-- Everything a line can make the tool do. -/
theorem hostLine_cases {action : LineAction} (hl : hostLine v line = some (v', action)) :
    action = .badStart ∨ action = .skip ∨ action = .finish (encodeSize v.fwSize) ∨
      ∃ count addr, hostDataRec v line count addr = some (v', action) := by
  unfold hostLine at hl
  obtain ⟨c, -, hl⟩ := Option.bind_eq_some_iff.mp hl
  split at hl
  · exact .inl (Prod.mk.inj (Option.some.inj hl)).2.symm
  -- the seven digits of the count, the address and the type
  iterate 7 obtain ⟨_, -, hl⟩ := Option.bind_eq_some_iff.mp hl
  dsimp only at hl
  split at hl
  · split at hl
    · exact .inr (.inl (Prod.mk.inj (Option.some.inj hl)).2.symm)
    · exact .inr (.inr (.inr ⟨_, _, hl⟩))
  split at hl
  · exact .inr (.inr (.inl (Prod.mk.inj (Option.some.inj hl)).2.symm))
  split at hl
  · iterate 2 obtain ⟨_, -, hl⟩ := Option.bind_eq_some_iff.mp hl
    split at hl <;> exact .inr (.inl (Prod.mk.inj (Option.some.inj hl)).2.symm)
  · exact .inr (.inl (Prod.mk.inj (Option.some.inj hl)).2.symm)

theorem hostDataRec_flash {count addr : Nat} {action : LineAction}
    (hr : hostDataRec v line count addr = some (v', action)) :
    ∃ data, lineData line count = some data ∧ action = .flash (encodeData data count addr) := by
  obtain ⟨data, hdata, hr⟩ := Option.bind_eq_some_iff.mp hr
  exact ⟨data, hdata, (Prod.mk.inj (Option.some.inj hr)).2.symm⟩

/-- What the tool writes without waiting for anything, and where it is then. -/
inductive Acted : HostPc → List UInt8 → Prop
  | quiet {pc} : (∀ file, pc ≠ .waitData file) → pc ≠ .waitSize → pc ≠ .waitSignat → Acted pc []
  | data {file data count addr} : data.length = count →
    Acted (.waitData file) (encodeData data count addr)
  | size {n} : Acted .waitSize (encodeSize n)

theorem hostAct_acted (ha : hostAct h = some (h', out)) : Acted h'.pc out := by
  unfold hostAct at ha
  split at ha
  · cases ha
    exact .quiet nofun nofun nofun
  · next line file _ =>
    split at ha
    · cases ha
      exact .quiet nofun nofun nofun
    · cases ha
      exact .quiet nofun nofun nofun
    · cases ha
      exact .quiet nofun nofun nofun
    · next hl =>
      cases ha
      rcases hostLine_cases hl with hbad | hbad | hbad | ⟨count, addr, hr⟩
      · cases hbad
      · cases hbad
      · cases hbad
      · obtain ⟨data, hdata, heq⟩ := hostDataRec_flash hr
        cases heq
        exact .data (lineData_length hdata)
    · next hl =>
      cases ha
      rcases hostLine_cases hl with hbad | hbad | heq | ⟨count, addr, hr⟩
      · cases hbad
      · cases hbad
      · cases heq
        exact .size
      · obtain ⟨data, -, heq⟩ := hostDataRec_flash hr
        cases heq
  · cases ha

theorem encodeForUart_ne_nil {data : List UInt8} : encodeForUart data ≠ [] := by
  rw [encodeForUart_eq]
  exact List.cons_ne_nil _ _

theorem hostAct_reading {file : List Line} : hostAct ⟨v, .reading file⟩ ≠ none := by
  cases file with
  | nil => exact nofun
  | cons line file =>
    simp only [hostAct]
    split <;> exact nofun

theorem hostAct_waiting (hw : h.Waiting) : hostAct h = none := by
  unfold Host.Waiting at hw
  unfold hostAct
  split at hw
  · next hpc => rw [hpc]
  · next hpc => rw [hpc]
  · next hpc => rw [hpc]
  · exact absurd hw nofun

theorem Acted.waiting (ha : Acted h.pc out) (hout : out ≠ []) : h.Waiting := by
  obtain ⟨vars, pc⟩ := h
  cases ha with
  | quiet => exact absurd rfl hout
  | data | size => trivial

/-- What a reply makes the tool write: the signature or the end of the session. -/
theorem hostRecv_cases (C : HostCrypto) (h : Host) (b : UInt8) :
    (hostRecv C h b).2 = [] ∨
    b = mcuMsgOpSuccess ∧
      (h.pc = .waitSize ∧ hostRecv C h b = ({ h with pc := .waitSignat },
          encodeSignat (C.signDigest (C.sha256 h.vars.fwHash))) ∨
        h.pc = .waitSignat ∧ hostRecv C h b = ({ h with pc := .returned }, stopMsg)) := by
  unfold hostRecv
  split
  · next hb =>
    split
    · exact .inl rfl
    · next hpc => exact .inr ⟨hb, .inl ⟨hpc, rfl⟩⟩
    · next hpc => exact .inr ⟨hb, .inr ⟨hpc, rfl⟩⟩
    · exact .inl rfl
  · split <;> exact .inl rfl

theorem tool_quiet (C : HostCrypto) : Quiet (tool C) where
  act _ _ _ ha hout := hostAct_waiting ((hostAct_acted ha).waiting hout)
  recv h b _ hout := by
    rcases hostRecv_cases C h b with hnil | ⟨-, ⟨-, heq⟩ | ⟨-, heq⟩⟩
    · exact absurd hnil hout
    · exact (congrArg (fun r => hostAct r.1) heq).trans rfl
    · exact (congrArg (fun r => hostAct r.1) heq).trans rfl

/-- Every request of the tool is one frame. -/
theorem Acted.framed {pc : HostPc} (ha : Acted pc out) :
    out = [] ∨ ∃ content, out = encode uartMarks content := by
  cases ha with
  | quiet => exact .inl rfl
  | data => exact .inr ⟨_, encodeForUart_eq _⟩
  | size => exact .inr ⟨_, encodeForUart_eq _⟩

theorem stopMsg_eq : stopMsg = encode uartMarks [hostMsgFlashStop] := rfl

theorem hostRecv_framed (C : HostCrypto) (h : Host) (b : UInt8) :
    (hostRecv C h b).2 = [] ∨ ∃ content, (hostRecv C h b).2 = encode uartMarks content := by
  rcases hostRecv_cases C h b with hnil | ⟨-, ⟨-, heq⟩ | ⟨-, heq⟩⟩
  · exact .inl hnil
  · exact .inr ⟨_, (congrArg Prod.snd heq).trans (encodeForUart_eq _)⟩
  · exact .inr ⟨_, (congrArg Prod.snd heq).trans stopMsg_eq⟩

/-! ## The end of the dialogue -/

/-- How often the tool can still act or take a reply. -/
def Host.remaining (h : Host) : Nat :=
  match h.pc with
  | .reading file => 2 * file.length + 3
  | .waitData file => 2 * file.length + 4
  | .waitSize => 2
  | .waitSignat => 1
  | .returned | .exited => 0

theorem hostAct_remaining (ha : hostAct h = some (h', out)) : h'.remaining < h.remaining := by
  obtain ⟨vars, pc⟩ := h
  cases pc with
  | reading file =>
    cases file with
    | nil =>
      cases ha
      exact Nat.succ_pos _
    | cons line file =>
      simp only [hostAct] at ha
      split at ha <;> cases ha <;> simp only [Host.remaining, List.length_cons] <;> omega
  | _ => cases ha

theorem hostRecv_remaining (hw : h.Waiting) (b : UInt8) :
    (hostRecv C h b).1.remaining < h.remaining ∨ hostRecv C h b = (h, []) := by
  obtain ⟨vars, pc⟩ := h
  unfold hostRecv
  split
  · cases pc with
    | waitData file => exact .inl (Nat.lt_succ_self _)
    | waitSize => exact .inl (Nat.lt_succ_self _)
    | waitSignat => exact .inl (Nat.lt_succ_self _)
    | _ => exact absurd hw nofun
  split
  · cases pc with
    | waitData file => exact .inl (Nat.succ_pos _)
    | waitSize => exact .inl (Nat.succ_pos _)
    | waitSignat => exact .inl (Nat.succ_pos _)
    | _ => exact absurd hw nofun
  · exact .inr rfl

/-- The dialogue with any server is finite. -/
theorem tool_step_wf {S ι : Type*} (C : HostCrypto) (V : Server S ι UInt8 UInt8) :
    WellFounded fun c' c => Step (tool C) V c c' :=
  step_wf Host.remaining (fun _ _ => hostAct_remaining) fun _ b hw => hostRecv_remaining hw b

end Pic18Boot
