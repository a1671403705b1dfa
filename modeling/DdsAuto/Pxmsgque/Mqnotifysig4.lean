import DdsAuto.Pxmsgque.Notified

/-!
# `mqnotifysig4`

No handler: `SIGUSR1` is blocked before the queue is registered for, and the loop
takes it with `sigwait`. An announcement is the pending signal, then the call that
returned it.
-/

namespace DdsAuto.Pxmsgque.Mqnotifysig4

open Lts

def SIGUSR1 : Nat := 10

/-- Where `main` is; each point is before the call it names. -/
inductive Main
  | sigBlock
  | mqNotify
  | sigwait
  | testSigno
  | mqNotifyAgain
  | mqReceive
  | exited
  deriving DecidableEq, Repr

structure State where
  main : Main
  signo : Nat
  pending : Bool
  mq : Mq
  first : Option (List Message)
  read : List Message
  deriving Repr

/-- `Mq_notify`, which ends the program where a registration exists. -/
def mqNotify (s : State) (next : Main) : State :=
  if s.mq.registered then { s with main := .exited }
  else { s with main := next, mq.registered := true }

/-- `main` up to its next call. `Sigwait` waits for the one signal of `newmask`. -/
def main (s : State) : Option State :=
  match s.main with
  | .sigBlock => some { s with main := .mqNotify }
  | .mqNotify => some { mqNotify s .sigwait with first := some s.mq.queue }
  | .sigwait =>
    if s.pending then some { s with main := .testSigno, signo := SIGUSR1, pending := false }
    else none
  | .testSigno => some { s with main := if s.signo = SIGUSR1 then .mqNotifyAgain else .sigwait }
  | .mqNotifyAgain => some (mqNotify s .mqReceive)
  | .mqReceive =>
    match s.mq.queue with
    | [] => some { s with main := .sigwait }
    | m :: queue => some { s with mq.queue := queue, read := s.read ++ [m] }
  | .exited => none

/-- The signal is delivered only while it is not blocked, and then it kills the
process. -/
def deliver (s : State) : Option State :=
  if s.pending ∧ s.main = .sigBlock then some { s with pending := false, main := .exited } else none

def mqSend (s : State) (m : Message) : State :=
  { s with mq := s.mq.send m, pending := s.pending || decide s.mq.Announces }

/-- `kill` is a `SIGUSR1` from somewhere else. -/
inductive Label
  | main
  | deliver
  | arrive (m : Message)
  | kill
  deriving DecidableEq

def step (capacity : Nat) (s : State) : Label → Option State
  | .main => main s
  | .deliver => deliver s
  | .arrive m => if s.mq.queue.length < capacity then some (mqSend s m) else none
  | .kill => some { s with pending := true }

def system (capacity : Nat) (queue : List Message) : Lts State Label where
  init := ⟨.sigBlock, 0, false, ⟨queue, false⟩, none, []⟩
  step := step capacity

/-- In `sigwait` with no signal to return, and a message in the queue. -/
def Missed (s : State) : Prop := s.main = .sigwait ∧ s.pending = false ∧ s.mq.queue ≠ []

instance (s : State) : Decidable (Missed s) := by unfold Missed; infer_instance

/-- Signals come from the queue only. -/
def NoKill (_ : State) (a : Label) : Prop := a ≠ .kill

instance (s : State) (a : Label) : Decidable (NoKill s a) := by unfold NoKill; infer_instance

-- ---------------------------------------------------------------------------
-- The carriers of an announcement
-- ---------------------------------------------------------------------------

def Main.carries : Main → Nat
  | .testSigno | .mqNotifyAgain => 1
  | _ => 0

def Main.draining : Main → Nat
  | .mqReceive => 1
  | _ => 0

def abs (s : State) : Notified.State where
  mq := s.mq
  first := s.first
  owed := s.pending.toNat + s.main.carries
  draining := s.main.draining
  read := s.read
  exited := s.main == .exited

/-- `main` has registered once it is past its first `Mq_notify`, and not before. -/
def Main.Registered : Main → Prop
  | .sigBlock | .mqNotify | .exited => False
  | _ => True

structure Points (s : State) : Prop where
  before : s.main = .sigBlock ∨ s.main = .mqNotify → s.first = none
  after : s.main.Registered → s.first ≠ none
  signo : s.main = .testSigno → s.signo = SIGUSR1

section
variable {capacity : Nat} {queue : List Message} {s s' : State} {a : Label}

theorem points_main (h : Points s) (hstep : main s = some s') : Points s' := by
  obtain ⟨hbefore, hafter, -⟩ := h
  cases hp : s.main <;> simp only [main, hp] at hstep
  case sigBlock =>
    cases hstep
    exact ⟨fun _ => hbefore (.inl hp), fun hr => hr.elim, nofun⟩
  case mqNotify =>
    cases hstep
    unfold mqNotify
    split <;> exact ⟨nofun, fun _ => nofun, nofun⟩
  case sigwait =>
    simp only [Option.ite_none_right_eq_some, Option.some.injEq] at hstep
    obtain ⟨-, rfl⟩ := hstep
    exact ⟨nofun, fun _ => hafter (hp ▸ trivial), fun _ => rfl⟩
  case testSigno =>
    cases hstep
    have hfirst := hafter (hp ▸ trivial)
    split <;> exact ⟨nofun, fun _ => hfirst, nofun⟩
  case mqNotifyAgain =>
    cases hstep
    have hfirst := hafter (hp ▸ trivial)
    unfold mqNotify
    split <;> exact ⟨nofun, fun _ => hfirst, nofun⟩
  case mqReceive =>
    have hfirst := hafter (hp ▸ trivial)
    split at hstep <;> cases hstep
    · exact ⟨nofun, fun _ => hfirst, nofun⟩
    · exact ⟨fun hor => by simp at hor, fun _ => hfirst, fun ht => by simp at ht⟩
  case exited => cases hstep

theorem points_step (h : Points s) (hstep : step capacity s a = some s') : Points s' := by
  cases a with
  | main => exact points_main h hstep
  | deliver =>
    simp only [step, deliver, Option.ite_none_right_eq_some, Option.some.injEq] at hstep
    rw [← hstep.2]
    exact ⟨nofun, fun hr => hr.elim, nofun⟩
  | arrive m =>
    simp only [step, Option.ite_none_right_eq_some, Option.some.injEq] at hstep
    rw [← hstep.2]
    exact ⟨h.before, h.after, h.signo⟩
  | kill =>
    cases hstep
    exact ⟨h.before, h.after, h.signo⟩

theorem points_of_reachable {ok : State → Label → Prop}
    (h : (system capacity queue).Reachable ok s) : Points s :=
  h.invariant (P := Points) ⟨fun _ => rfl, fun hr => hr.elim, nofun⟩
    fun _ _ _ hs _ hstep => points_step hs hstep

/-- The step is one of the abstract receiver, or none. -/
def Explained (s : State) (a : Label) (s' : State) : Prop :=
  Notified.Explained (a = .kill) (abs s) (abs s')

theorem explained_main (h : Points s) (hun : s.main = .mqNotify → s.mq.registered = false)
    (hstep : main s = some s') : Explained s .main s' := by
  cases hp : s.main <;> simp only [main, hp] at hstep
  case sigBlock =>
    cases hstep
    exact .of_eq (by simp [abs, hp, Main.carries, Main.draining])
  case mqNotify =>
    cases hstep
    have hfirst := h.before (.inr hp)
    refine .of_step .register ?_
    simp [Notified.step, Notified.register, abs, mqNotify, hun hp, hp, hfirst, Main.carries,
      Main.draining]
  case sigwait =>
    simp only [Option.ite_none_right_eq_some, Option.some.injEq] at hstep
    obtain ⟨hpend, rfl⟩ := hstep
    exact .of_eq (by simp [abs, hp, hpend, Main.carries, Main.draining])
  case testSigno =>
    cases hstep
    rw [if_pos (h.signo hp)]
    exact .of_eq (by simp [abs, hp, Main.carries, Main.draining])
  case mqNotifyAgain =>
    cases hstep
    have hfirst := h.after (hp ▸ trivial)
    refine .of_step .answer ?_
    cases hreg : s.mq.registered <;>
      simp [Notified.step, Notified.answer, abs, mqNotify, hreg, hp, hfirst, Main.carries,
        Main.draining]
  case mqReceive =>
    refine .of_step .receive ?_
    split at hstep <;> rename_i hqueue <;> cases hstep <;>
      simp [Notified.step, Notified.receive, abs, hqueue, hp, Main.carries, Main.draining]
  case exited => cases hstep

theorem explained_arrive (s : State) (m : Message) : Explained s (.arrive m) (mqSend s m) := by
  by_cases hann : s.mq.Announces
  · cases hpend : s.pending with
    | true =>
      refine .of_step (.arrive m true) ?_
      simp [Notified.step, Notified.arrive, abs, mqSend, hann, hpend]
    | false =>
      refine .of_step (.arrive m false) ?_
      simp [Notified.step, Notified.arrive, abs, mqSend, hann, hpend]
      omega
  · refine .of_step (.arrive m false) ?_
    simp [Notified.step, Notified.arrive, abs, mqSend, hann]

theorem explained_step (h : Points s) (hun : s.main = .mqNotify → s.mq.registered = false)
    (hstep : step capacity s a = some s') : Explained s a s' := by
  cases a with
  | main => exact explained_main h hun hstep
  | deliver =>
    simp only [step, deliver, Option.ite_none_right_eq_some, Option.some.injEq] at hstep
    obtain ⟨⟨hpend, hp⟩, rfl⟩ := hstep
    refine .inr ⟨.kill, by simp, fun _ => h.before (.inl hp), ?_⟩
    simp [Notified.step, abs, hpend, hp, Main.carries, Main.draining]
  | arrive m =>
    simp only [step, Option.ite_none_right_eq_some, Option.some.injEq] at hstep
    rw [← hstep.2]
    exact explained_arrive s m
  | kill =>
    cases hstep
    cases hpend : s.pending with
    | true => exact .of_eq (by simp [abs, hpend])
    | false =>
      refine .inr ⟨.stray, fun _ => rfl, by simp, ?_⟩
      simp [Notified.step, abs, hpend]
      omega

-- ---------------------------------------------------------------------------
-- The program is a receiver that registers again and then drains
-- ---------------------------------------------------------------------------

theorem not_registered {ok : State → Label → Prop} {ok' : Notified.State → Notified.Label → Prop}
    (h : (system capacity queue).Reachable ok s)
    (habs : (Notified.system queue).Reachable ok' (abs s)) (hp : s.main = .mqNotify) :
    s.mq.registered = false := by
  rcases Notified.inv_of_reachable habs with hinv | hexit
  · exact (hinv.unregistered ((points_of_reachable h).before (.inr hp))).1
  · simp [abs, hp] at hexit

theorem abs_reachable (h : (system capacity queue).Reachable anyStep s) :
    (Notified.system queue).Reachable anyStep (abs s) :=
  h.map rfl fun _ _ _ hs habs _ hstep =>
    (explained_step (points_of_reachable hs) (not_registered hs habs) hstep).follows

theorem abs_genuine (h : (system capacity queue).Reachable NoKill s) :
    (Notified.system queue).Reachable Notified.Genuine (abs s) :=
  h.map rfl fun _ _ _ hs habs hok hstep =>
    (explained_step (points_of_reachable hs) (not_registered hs habs) hstep).genuine
      (Notified.token_of_reachable habs) hok

end

end DdsAuto.Pxmsgque.Mqnotifysig4
