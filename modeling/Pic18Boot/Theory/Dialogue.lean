import Mathlib.Logic.Relation
import Mathlib.Data.List.Induction
import Mathlib.Order.WellFounded

/-! # Request and reply over two FIFO queues

A client writes requests symbol by symbol and waits for a reply to each; a server reads the symbols
one at a time. `Step` interleaves the two over a lossless link in both directions. `Sync` is the
same dialogue with whole requests and replies: under the discipline of `Quiet` and `Polite` every
reachable state of the link is a synchronous one whose server has read part of the outstanding
request (`reach_mid`), and conversely every synchronous state is reachable (`Sync.reach`). -/

namespace Dialogue
open Relation

variable {K S ι α β : Type*}

structure Client (K α β : Type*) where
  /-- A step that reads nothing, with what it writes. -/
  act : K → Option (K × List α)
  Waiting : K → Prop
  /-- A reply is read while waiting. -/
  recv : K → β → K × List α

/-- A server reads inputs; the link carries their symbols, and the rest of an input is the server's
environment at that moment. -/
structure Server (S ι α β : Type*) where
  sym : ι → α
  step : S → ι → S × List β
  Live : S → Prop
  dead : ∀ s i, ¬ Live s → step s i = (s, [])

@[ext] structure Config (K S α β : Type*) where
  client : K
  server : S
  /-- From the client to the server. -/
  up : List α
  down : List β

variable (C : Client K α β) (V : Server S ι α β)

inductive Step : Config K S α β → Config K S α β → Prop
  | act {k k' s req up down} : C.act k = some (k', req) →
    Step ⟨k, s, up, down⟩ ⟨k', s, up ++ req, down⟩
  | recv {k s up b down} : C.Waiting k →
    Step ⟨k, s, up, b :: down⟩ ⟨(C.recv k b).1, s, up ++ (C.recv k b).2, down⟩
  | serve {k s i up down} : V.Live s →
    Step ⟨k, s, V.sym i :: up, down⟩ ⟨k, (V.step s i).1, up, down ++ (V.step s i).2⟩

/-- The client waits, the server waits, and nothing is on its way. -/
def Deadlock (c : Config K S α β) : Prop :=
  C.Waiting c.client ∧ V.Live c.server ∧ c.up = [] ∧ c.down = []

def Reach (k : K) (s : S) (c : Config K S α β) : Prop :=
  ReflTransGen (Step C V) ⟨k, s, [], []⟩ c

/-- The states of a client that starts at `k₀`, whatever it is answered. -/
inductive Client.Runs (k₀ : K) : K → Prop
  | start : Client.Runs k₀ k₀
  | act {k k' req} : Client.Runs k₀ k → C.act k = some (k', req) → Client.Runs k₀ k'
  | recv {k} (b : β) : Client.Runs k₀ k → C.Waiting k → Client.Runs k₀ (C.recv k b).1

/-- The server over a list of inputs, with all it sends. -/
def Server.run : S → List ι → S × List β
  | s, [] => (s, [])
  | s, i :: is => ((run (V.step s i).1 is).1, (V.step s i).2 ++ (run (V.step s i).1 is).2)

/-- The states between two exchanges: client, server, and the request the server has yet to read. -/
inductive Sync (k₀ : K) (s₀ : S) : K → S → List α → Prop
  | start : Sync k₀ s₀ k₀ s₀ []
  | act {k k' s req} : Sync k₀ s₀ k s [] → C.act k = some (k', req) → Sync k₀ s₀ k' s req
  | exchange {k s is b} : Sync k₀ s₀ k s (is.map V.sym) → C.Waiting k → (V.run s is).2 = [b] →
    Sync k₀ s₀ (C.recv k b).1 (V.run s is).1 (C.recv k b).2

/-- A client that has written a request does nothing before the reply. -/
structure Quiet : Prop where
  act : ∀ k k' req, C.act k = some (k', req) → req ≠ [] → C.act k' = none
  recv : ∀ k b, C.Waiting k → (C.recv k b).2 ≠ [] → C.act (C.recv k b).1 = none

/-- A server that sends nothing before it has read a whole request, and then at most one symbol. -/
def Polite (k₀ : K) (s₀ : S) : Prop :=
  ∀ k s out, Sync C V k₀ s₀ k s out → ∀ is, is.map V.sym <+: out →
    (V.run s is).2 = [] ∨ is.map V.sym = out ∧ ∃ b, (V.run s is).2 = [b]

variable {C V} {k₀ k : K} {s₀ s : S} {i : ι} {is js : List ι} {out : List α}
  {c : Config K S α β}

/-- On the link the client does nothing else. -/
theorem Reach.client (h : Reach C V k₀ s₀ c) : C.Runs k₀ c.client := by
  induction h with
  | refl => exact .start
  | tail _ hstep ih =>
    cases hstep with
    | act hact => exact ih.act hact
    | recv hwait => exact ih.recv _ hwait
    | serve => exact ih

namespace Server

@[simp] theorem run_nil : V.run s [] = (s, []) := rfl

theorem run_append : V.run s (is ++ js) =
    ((V.run (V.run s is).1 js).1, (V.run s is).2 ++ (V.run (V.run s is).1 js).2) := by
  induction is generalizing s with
  | nil => rfl
  | cons i is ih => simp only [List.cons_append, run, ih, List.append_assoc]

theorem run_snoc : V.run s (is ++ [i]) =
    ((V.step (V.run s is).1 i).1, (V.run s is).2 ++ (V.step (V.run s is).1 i).2) := by
  rw [run_append]
  simp [run]

theorem run_dead (h : ¬ V.Live s) : V.run s is = (s, []) := by
  induction is with
  | nil => rfl
  | cons i is ih => simp only [run, V.dead s i h, ih, List.append_nil]

theorem live_of_run (h : V.Live (V.run s is).1) : V.Live s := by
  by_contra hs
  rw [run_dead hs] at h
  exact hs h

/-- The server is live before each of the inputs. -/
def LiveFor (V : Server S ι α β) (s : S) (is : List ι) : Prop :=
  ∀ p i, p ++ [i] <+: is → V.Live (V.run s p).1

theorem LiveFor.of_run (h : V.Live (V.run s is).1) : V.LiveFor s is := by
  rintro p i ⟨js, rfl⟩
  rw [List.append_assoc, run_append] at h
  exact live_of_run h

end Server

/-- The server reads all of `is`. -/
theorem serve_run (k : K) (up : List α) (down : List β) (h : V.LiveFor s is) :
    ReflTransGen (Step C V) ⟨k, s, is.map V.sym ++ up, down⟩
      ⟨k, (V.run s is).1, up, down ++ (V.run s is).2⟩ := by
  induction is generalizing s down with
  | nil => simpa using ReflTransGen.refl
  | cons i is ih =>
    have hlive : V.Live s := h [] i (by simp)
    have hrest : V.LiveFor (V.step s i).1 is := fun p j hp =>
      h (i :: p) j (List.cons_prefix_cons.mpr ⟨rfl, hp⟩)
    have htail := ih (down ++ (V.step s i).2) hrest
    rw [List.append_assoc] at htail
    exact .head (.serve hlive) htail

theorem Sync.quiet (hC : Quiet C) (h : Sync C V k₀ s₀ k s out) (hout : out ≠ []) :
    C.act k = none := by
  cases h with
  | start => exact absurd rfl hout
  | act _ hact => exact hC.act _ _ _ hact hout
  | exchange _ hwait _ => exact hC.recv _ _ hwait hout

/-- A synchronous state, part of whose outstanding request has been read. -/
def Mid (C : Client K α β) (V : Server S ι α β) (k₀ : K) (s₀ : S) (c : Config K S α β) : Prop :=
  ∃ s is, Sync C V k₀ s₀ c.client s (is.map V.sym ++ c.up) ∧ V.run s is = (c.server, c.down)

/-- A client that acts has no request outstanding. -/
theorem Mid.sync_of_act {r : K × List α} (hC : Quiet C) (h : Mid C V k₀ s₀ c)
    (hact : C.act c.client = some r) :
    Sync C V k₀ s₀ c.client c.server [] ∧ c.up = [] ∧ c.down = [] := by
  obtain ⟨s, is, hsync, hrun⟩ := h
  have hout : is.map V.sym ++ c.up = [] := by
    by_contra hne
    exact absurd (hact.symm.trans (hsync.quiet hC hne)) nofun
  obtain ⟨his, hup⟩ := List.append_eq_nil_iff.mp hout
  obtain rfl := List.map_eq_nil_iff.mp his
  obtain ⟨rfl, hdown⟩ := Prod.mk.inj hrun
  rw [hout] at hsync
  exact ⟨hsync, hup, hdown.symm⟩

theorem reach_mid (hC : Quiet C) (hV : Polite C V k₀ s₀) (h : Reach C V k₀ s₀ c) :
    Mid C V k₀ s₀ c := by
  induction h with
  | refl => exact ⟨s₀, [], .start, rfl⟩
  | tail _ hstep ih =>
    cases hstep with
    | @act k k' s req up down hact =>
      obtain ⟨hsync, rfl, rfl⟩ := Mid.sync_of_act hC ih hact
      exact ⟨s, [], hsync.act hact, rfl⟩
    | recv hwait =>
      obtain ⟨s, is, hsync, hrun⟩ := ih
      rcases hV _ _ _ hsync is (List.prefix_append _ _) with hnone | ⟨hall, b, hb⟩
      · exact absurd (hnone.symm.trans (congrArg Prod.snd hrun)) nofun
      obtain rfl := List.self_eq_append_right.mp hall
      obtain ⟨rfl, rfl⟩ := List.cons.inj (hb.symm.trans (congrArg Prod.snd hrun))
      rw [List.append_nil] at hsync
      refine ⟨_, [], ?_, rfl⟩
      have hnext := hsync.exchange hwait hb
      rwa [congrArg Prod.fst hrun] at hnext
    | @serve k s' i up down hlive =>
      obtain ⟨s, is, hsync, hrun⟩ := ih
      refine ⟨s, is ++ [i], by simpa using hsync, ?_⟩
      rw [Server.run_snoc, hrun]

/-- A reply shows that the server was alive up to the end of the request. -/
theorem Sync.liveFor (hV : Polite C V k₀ s₀) (hsync : Sync C V k₀ s₀ k s (is.map V.sym)) {b : β}
    (hb : (V.run s is).2 = [b]) : V.LiveFor s is := by
  rintro p i ⟨js, rfl⟩
  by_contra hdead
  rw [List.append_assoc] at hsync hb
  rw [Server.run_append, Server.run_dead hdead] at hb
  rcases hV _ _ _ hsync p ((List.prefix_append p _).map V.sym) with hnone | ⟨hall, -⟩
  · rw [hnone] at hb
    cases hb
  · have hlen := congrArg List.length hall
    simp only [List.length_map, List.length_append, List.length_singleton] at hlen
    omega

/-- **Every synchronous state is reachable.** -/
theorem Sync.reach (hV : Polite C V k₀ s₀) (h : Sync C V k₀ s₀ k s out) :
    Reach C V k₀ s₀ ⟨k, s, out, []⟩ := by
  induction h with
  | start => exact .refl
  | act _ hact ih => exact .tail ih (.act hact)
  | @exchange k s is b hsync hwait hb ih =>
    have hserve := serve_run (C := C) k [] [] (hsync.liveFor hV hb)
    rw [hb, List.append_nil] at hserve
    exact (ih.trans hserve).tail (.recv hwait)

/-- **A deadlock is reachable exactly when** a request goes unanswered by a server that stays
alive. -/
theorem deadlock_iff (hC : Quiet C) (hV : Polite C V k₀ s₀) :
    (∃ c, Reach C V k₀ s₀ c ∧ Deadlock C V c) ↔
      ∃ k s is, Sync C V k₀ s₀ k s (is.map V.sym) ∧ C.Waiting k ∧ V.Live (V.run s is).1 ∧
        (V.run s is).2 = [] := by
  constructor
  · rintro ⟨⟨k, s', up, down⟩, hreach, hwait, hlive, hup, hdown⟩
    obtain rfl : up = [] := hup
    obtain rfl : down = [] := hdown
    obtain ⟨s, is, hsync, hrun⟩ := reach_mid hC hV hreach
    rw [List.append_nil] at hsync
    exact ⟨k, s, is, hsync, hwait, by rwa [hrun], by rw [hrun]⟩
  · rintro ⟨k, s, is, hsync, hwait, hlive, hnone⟩
    have hserve := serve_run (C := C) k [] [] (Server.LiveFor.of_run hlive)
    rw [hnone, List.append_nil] at hserve
    exact ⟨_, (hsync.reach hV).trans hserve, hwait, hlive, rfl, rfl⟩

/-! ## Runs to the end -/

/-- No step is possible. -/
def Stuck (C : Client K α β) (V : Server S ι α β) (c : Config K S α β) : Prop :=
  ∀ c', ¬ Step C V c c'

/-- **Where the dialogue ends** if every request is answered: the request outstanding is read whole,
and a client still waiting has no reply. -/
theorem stuck_sync (hC : Quiet C) (hV : Polite C V k₀ s₀) (hsym : Function.Surjective V.sym)
    (hans : ∀ k s is, Sync C V k₀ s₀ k s (is.map V.sym) → is ≠ [] → ∃ b, (V.run s is).2 = [b])
    (hreach : Reach C V k₀ s₀ c) (hstuck : Stuck C V c) :
    C.act c.client = none ∧ (C.Waiting c.client → c.down = []) ∧
      ∃ s is, Sync C V k₀ s₀ c.client s (is.map V.sym) ∧ V.run s is = (c.server, c.down) := by
  obtain ⟨k, s', up, down⟩ := c
  obtain ⟨s, is, hsync, hrun⟩ := reach_mid hC hV hreach
  obtain ⟨g, hg⟩ := hsym.hasRightInverse
  obtain ⟨js, rfl⟩ : ∃ js, js.map V.sym = up := ⟨up.map g, by simp [Function.comp_def, hg _]⟩
  rw [← List.map_append] at hsync
  have hjs : js = [] := by
    cases js with
    | nil => rfl
    | cons j js =>
      obtain ⟨b, hb⟩ := hans _ _ _ hsync (by simp)
      have hlive : V.Live (V.run s is).1 := hsync.liveFor hV hb is j ⟨js, by simp⟩
      rw [hrun] at hlive
      exact absurd (.serve hlive) (hstuck _)
  subst hjs
  rw [List.append_nil] at hsync
  refine ⟨?_, fun hwait => ?_, s, is, hsync, hrun⟩
  · cases hact : C.act k with
    | none => rfl
    | some r => exact absurd (.act hact) (hstuck _)
  · cases down with
    | nil => rfl
    | cons b down => exact absurd (.recv hwait) (hstuck _)

/-- A client that can act and take replies only so often, junk apart, makes every dialogue
finite. -/
theorem step_wf (μ : K → ℕ) (hact : ∀ k r, C.act k = some r → μ r.1 < μ k)
    (hrecv : ∀ k b, C.Waiting k → μ (C.recv k b).1 < μ k ∨ C.recv k b = (k, [])) :
    WellFounded fun c' c => Step C V c c' := by
  refine Subrelation.wf (fun {c' c} hstep => ?_)
    (InvImage.wf (fun c : Config K S α β => (μ c.client, c.up.length, c.down.length))
      (Prod.lex Nat.lt_wfRel (Prod.lex Nat.lt_wfRel Nat.lt_wfRel)).wf)
  cases hstep with
  | act h => exact .left _ _ (hact _ _ h)
  | @recv k s up b down hwait =>
    rcases hrecv k b hwait with hlt | heq
    · exact .left _ _ hlt
    · rw [heq, List.append_nil]
      exact .right _ (.right _ (Nat.lt_succ_self _))
  | serve => exact .right _ (.left _ _ (Nat.lt_succ_self _))

theorem exists_stuck (hwf : WellFounded fun c' c => Step C V c c') (c : Config K S α β) :
    ∃ c', ReflTransGen (Step C V) c c' ∧ Stuck C V c' := by
  induction c using hwf.induction with
  | _ c ih =>
    by_cases hstuck : Stuck C V c
    · exact ⟨c, .refl, hstuck⟩
    · obtain ⟨c', hstep⟩ := not_forall_not.mp hstuck
      obtain ⟨c'', hrest, hend⟩ := ih c' hstep
      exact ⟨c'', .head hstep hrest, hend⟩

end Dialogue
