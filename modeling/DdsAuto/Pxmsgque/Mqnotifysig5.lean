import DdsAuto.Pxmsgque.Notified

/-!
# `mqnotifysig5`

The handler of `SIGUSR1` writes a byte into a pipe and the loop of `main` waits in
`select` for the pipe. An announcement is a pending signal, then a handler, then a
byte; the byte is read before the queue is registered for again.
-/

namespace DdsAuto.Pxmsgque.Mqnotifysig5

open Lts

/-- Where `main` is; each point is before the call it names. -/
inductive Main
  | signal
  | mqNotify
  | select
  | read
  | mqNotifyAgain
  | mqReceive
  | exited
  deriving DecidableEq, Repr

/-- `sig_usr1`: not running, or before its `Write`. -/
inductive Handler
  | none
  | entered
  deriving DecidableEq, Repr

/-- `pending` is `SIGUSR1`, generated and not delivered; `pipe` counts the bytes
in the pipe. -/
structure State where
  main : Main
  handler : Handler
  pending : Bool
  pipe : Nat
  mq : Mq
  first : Option (List Message)
  read : List Message
  deriving Repr

/-- `Mq_notify`, which ends the program where a registration exists. -/
def mqNotify (s : State) (next : Main) : State :=
  if s.mq.registered then { s with main := .exited }
  else { s with main := next, mq.registered := true }

/-- `main` up to its next call. `Select` goes around again where a signal breaks
into it, and returns with the pipe readable. -/
def main (s : State) : Option State :=
  if s.handler = .none then
    match s.main with
    | .signal => some { s with main := .mqNotify }
    | .mqNotify => some { mqNotify s .select with first := some s.mq.queue }
    | .select => if 0 < s.pipe then some { s with main := .read } else none
    | .read => if 0 < s.pipe then some { s with main := .mqNotifyAgain, pipe := s.pipe - 1 } else none
    | .mqNotifyAgain => some (mqNotify s .mqReceive)
    | .mqReceive =>
      match s.mq.queue with
      | [] => some { s with main := .select }
      | m :: queue => some { s with mq.queue := queue, read := s.read ++ [m] }
    | .exited => none
  else none

/-- One byte of 0; the write blocks while the pipe is full. -/
def sigUsr1 (pipeSize : Nat) (s : State) : Option State :=
  match s.handler with
  | .none => none
  | .entered =>
    if s.pipe < pipeSize then some { s with handler := .none, pipe := s.pipe + 1 } else none

/-- Before `Signal`, `SIGUSR1` kills the process. -/
def deliver (s : State) : Option State :=
  if s.pending ∧ s.handler = .none ∧ s.main ≠ .exited then
    if s.main = .signal then some { s with pending := false, main := .exited }
    else some { s with pending := false, handler := .entered }
  else none

def mqSend (s : State) (m : Message) : State :=
  { s with mq := s.mq.send m, pending := s.pending || decide s.mq.Announces }

/-- `kill` is a `SIGUSR1` from somewhere else. -/
inductive Label
  | main
  | sigUsr1
  | deliver
  | arrive (m : Message)
  | kill
  deriving DecidableEq

def step (capacity pipeSize : Nat) (s : State) : Label → Option State
  | .main => main s
  | .sigUsr1 => sigUsr1 pipeSize s
  | .deliver => deliver s
  | .arrive m => if s.mq.queue.length < capacity then some (mqSend s m) else none
  | .kill => some { s with pending := true }

def system (capacity pipeSize : Nat) (queue : List Message) : Lts State Label where
  init := ⟨.signal, .none, false, 0, ⟨queue, false⟩, none, []⟩
  step := step capacity pipeSize

/-- Waiting in `select` with nothing to end it, and a message in the queue. -/
def Missed (s : State) : Prop :=
  s.main = .select ∧ s.pipe = 0 ∧ s.pending = false ∧ s.handler = .none ∧ s.mq.queue ≠ []

instance (s : State) : Decidable (Missed s) := by unfold Missed; infer_instance

/-- Signals come from the queue only. -/
def NoKill (_ : State) (a : Label) : Prop := a ≠ .kill

instance (s : State) (a : Label) : Decidable (NoKill s a) := by unfold NoKill; infer_instance

-- ---------------------------------------------------------------------------
-- The carriers of an announcement
-- ---------------------------------------------------------------------------

def Handler.carries : Handler → Nat
  | .none => 0
  | .entered => 1

def Main.carries : Main → Nat
  | .mqNotifyAgain => 1
  | _ => 0

def Main.draining : Main → Nat
  | .mqReceive => 1
  | _ => 0

def owed (s : State) : Nat :=
  s.pending.toNat + s.handler.carries + s.pipe + s.main.carries

def abs (s : State) : Notified.State where
  mq := s.mq
  first := s.first
  owed := owed s
  draining := s.main.draining
  read := s.read
  exited := s.main == .exited

/-- `main` has registered once it is past its first `Mq_notify`, and not before. -/
def Main.Registered : Main → Prop
  | .signal | .mqNotify | .exited => False
  | _ => True

def Starting (s : State) : Prop :=
  (s.main = .signal ∨ s.main = .mqNotify → s.first = none) ∧ (s.main.Registered → s.first ≠ none)

section
variable {capacity pipeSize : Nat} {queue : List Message} {s s' : State} {a : Label} {m : Message}

theorem starting_main (h : Starting s) (hstep : main s = some s') : Starting s' := by
  obtain ⟨hbefore, hafter⟩ := h
  simp only [main, Option.ite_none_right_eq_some] at hstep
  obtain ⟨-, hstep⟩ := hstep
  cases hp : s.main <;> simp only [hp] at hstep
  case signal =>
    cases hstep
    exact ⟨fun _ => hbefore (.inl hp), fun hr => hr.elim⟩
  case mqNotify =>
    cases hstep
    unfold mqNotify
    split <;> exact ⟨nofun, fun _ => nofun⟩
  case select | read =>
    simp only [Option.ite_none_right_eq_some, Option.some.injEq] at hstep
    obtain ⟨-, rfl⟩ := hstep
    exact ⟨nofun, fun _ => hafter (hp ▸ trivial)⟩
  case mqNotifyAgain =>
    cases hstep
    have hfirst := hafter (hp ▸ trivial)
    unfold mqNotify
    split <;> exact ⟨nofun, fun _ => hfirst⟩
  case mqReceive =>
    have hfirst := hafter (hp ▸ trivial)
    split at hstep <;> cases hstep
    · exact ⟨nofun, fun _ => hfirst⟩
    · exact ⟨fun hor => by simp at hor, fun _ => hfirst⟩
  case exited => cases hstep

theorem starting_step (h : Starting s) (hstep : step capacity pipeSize s a = some s') :
    Starting s' := by
  cases a with
  | main => exact starting_main h hstep
  | sigUsr1 =>
    simp only [step, sigUsr1] at hstep
    split at hstep
    · cases hstep
    · simp only [Option.ite_none_right_eq_some, Option.some.injEq] at hstep
      rw [← hstep.2]
      exact h
  | deliver =>
    simp only [step, deliver, Option.ite_none_right_eq_some] at hstep
    obtain ⟨-, hstep⟩ := hstep
    split at hstep <;> cases hstep
    · exact ⟨nofun, fun hr => hr.elim⟩
    · exact h
  | arrive m =>
    simp only [step, Option.ite_none_right_eq_some, Option.some.injEq] at hstep
    rw [← hstep.2]
    exact h
  | kill =>
    cases hstep
    exact h

theorem starting_of_reachable {ok : State → Label → Prop}
    (h : (system capacity pipeSize queue).Reachable ok s) : Starting s :=
  h.invariant (P := Starting) ⟨fun _ => rfl, fun hr => hr.elim⟩
    fun _ _ _ hs _ hstep => starting_step hs hstep

/-- The step is one of the abstract receiver, or none. -/
def Explained (s : State) (a : Label) (s' : State) : Prop :=
  Notified.Explained (a = .kill) (abs s) (abs s')

theorem explained_main (hstart : Starting s)
    (hun : s.main = .mqNotify → s.mq.registered = false) (hstep : main s = some s') :
    Explained s .main s' := by
  simp only [main, Option.ite_none_right_eq_some] at hstep
  obtain ⟨hquiet, hstep⟩ := hstep
  cases hp : s.main <;> simp only [hp] at hstep
  case signal =>
    cases hstep
    exact .of_eq (by simp [abs, owed, hp, Main.carries, Main.draining])
  case mqNotify =>
    cases hstep
    have hfirst := hstart.1 (.inr hp)
    refine .of_step .register ?_
    simp [Notified.step, Notified.register, abs, owed, mqNotify, hun hp, hp, hfirst,
      Main.carries, Main.draining]
  case select =>
    simp only [Option.ite_none_right_eq_some, Option.some.injEq] at hstep
    obtain ⟨-, rfl⟩ := hstep
    exact .of_eq (by simp [abs, owed, hp, Main.carries, Main.draining])
  case read =>
    simp only [Option.ite_none_right_eq_some, Option.some.injEq] at hstep
    obtain ⟨hpos, rfl⟩ := hstep
    refine .of_eq ?_
    simp [abs, owed, hp, Main.carries, Main.draining]
    omega
  case mqNotifyAgain =>
    cases hstep
    have hfirst := hstart.2 (hp ▸ trivial)
    refine .of_step .answer ?_
    cases hreg : s.mq.registered <;>
      simp [Notified.step, Notified.answer, abs, owed, mqNotify, hreg, hp, hfirst,
        Main.carries, Main.draining]
  case mqReceive =>
    refine .of_step .receive ?_
    split at hstep <;> rename_i hqueue <;> cases hstep <;>
      simp [Notified.step, Notified.receive, abs, owed, hqueue, hp, Main.carries, Main.draining]
  case exited => cases hstep

theorem explained_arrive (s : State) (m : Message) : Explained s (.arrive m) (mqSend s m) := by
  by_cases hann : s.mq.Announces
  · cases hpend : s.pending with
    | true =>
      refine .of_step (.arrive m true) ?_
      simp [Notified.step, Notified.arrive, abs, owed, mqSend, hann, hpend]
    | false =>
      refine .of_step (.arrive m false) ?_
      simp [Notified.step, Notified.arrive, abs, owed, mqSend, hann, hpend]
      omega
  · refine .of_step (.arrive m false) ?_
    simp [Notified.step, Notified.arrive, abs, owed, mqSend, hann]

theorem explained_step (hstart : Starting s)
    (hun : s.main = .mqNotify → s.mq.registered = false)
    (hstep : step capacity pipeSize s a = some s') : Explained s a s' := by
  cases a with
  | main => exact explained_main hstart hun hstep
  | sigUsr1 =>
    simp only [step, sigUsr1] at hstep
    split at hstep
    · cases hstep
    · rename_i hh
      simp only [Option.ite_none_right_eq_some, Option.some.injEq] at hstep
      obtain ⟨-, rfl⟩ := hstep
      refine .of_eq ?_
      simp [abs, owed, hh, Handler.carries]
      omega
  | deliver =>
    simp only [step, deliver, Option.ite_none_right_eq_some] at hstep
    obtain ⟨⟨hpend, hquiet, -⟩, hstep⟩ := hstep
    split at hstep <;> rename_i hp <;> cases hstep
    · refine .inr ⟨.kill, by simp, fun _ => hstart.1 (.inl hp), ?_⟩
      simp [Notified.step, abs, owed, hpend, hquiet, hp, Handler.carries, Main.carries,
        Main.draining]
    · exact .of_eq (by simp [abs, owed, hpend, hquiet, Handler.carries])
  | arrive m =>
    simp only [step, Option.ite_none_right_eq_some, Option.some.injEq] at hstep
    rw [← hstep.2]
    exact explained_arrive s m
  | kill =>
    cases hstep
    cases hpend : s.pending with
    | true => exact .of_eq (by simp [abs, owed, hpend])
    | false =>
      refine .inr ⟨.stray, fun _ => rfl, by simp, ?_⟩
      simp [Notified.step, abs, owed, hpend]
      omega

end

-- ---------------------------------------------------------------------------
-- The program is a receiver that registers again and then drains
-- ---------------------------------------------------------------------------

section
variable {capacity pipeSize : Nat} {queue : List Message} {s s' : State} {a : Label}

theorem not_registered {ok : State → Label → Prop} {ok' : Notified.State → Notified.Label → Prop}
    (h : (system capacity pipeSize queue).Reachable ok s)
    (habs : (Notified.system queue).Reachable ok' (abs s)) (hp : s.main = .mqNotify) :
    s.mq.registered = false := by
  rcases Notified.inv_of_reachable habs with hinv | hexit
  · exact (hinv.unregistered ((starting_of_reachable h).1 (.inr hp))).1
  · simp [abs, hp] at hexit

theorem abs_reachable (h : (system capacity pipeSize queue).Reachable anyStep s) :
    (Notified.system queue).Reachable anyStep (abs s) :=
  h.map rfl fun _ _ _ hs habs _ hstep =>
    (explained_step (starting_of_reachable hs) (not_registered hs habs) hstep).follows

theorem abs_genuine (h : (system capacity pipeSize queue).Reachable NoKill s) :
    (Notified.system queue).Reachable Notified.Genuine (abs s) :=
  h.map rfl fun _ _ _ hs habs hok hstep =>
    (explained_step (starting_of_reachable hs) (not_registered hs habs) hstep).genuine
      (Notified.token_of_reachable habs) hok

end

end DdsAuto.Pxmsgque.Mqnotifysig5
