import DdsAuto.Lib.Lts

/-!
# `mqnotifysig3`

The receiver, its queue and the signal that announces messages. A registration
is used up by the first message that finds the queue empty. The loop registers
again and then drains the queue, with `SIGUSR1` blocked from the test of
`mq_flag` on; but the registration before the loop is not followed by a drain.
`no_message_missed_iff`: a message is missed exactly when one is in the queue at
that first registration.
-/

namespace DdsAuto.Pxmsgque

open Lts

structure Message where
  prio : Nat
  data : List UInt8
  deriving DecidableEq, Repr

/-- Where `main` is; each point is before the call it names. -/
inductive Main
  | signal
  | mqNotify
  | sigBlock
  | testFlag
  | sigsuspend
  | clearFlag
  | mqNotifyAgain
  | mqReceive
  | sigUnblock
  | exited
  deriving DecidableEq, Repr

/-- `sig_usr1`: not running, before its store, before its return. -/
inductive Handler
  | none
  | entered
  | stored
  deriving DecidableEq, Repr

/-- `registered` is the queue's one registration and `pending` is `SIGUSR1`,
generated and not delivered. -/
structure State where
  main : Main
  handler : Handler
  mqFlag : Bool
  queue : List Message
  registered : Bool
  pending : Bool
  deriving Repr

/-- `SIGUSR1` is blocked; `sigsuspend` waits with no signal blocked. -/
def Main.masked : Main → Bool
  | .testFlag | .clearFlag | .mqNotifyAgain | .mqReceive | .sigUnblock => true
  | _ => false

/-- `Mq_notify`, which ends the program where a registration exists. -/
def mqNotify (s : State) (next : Main) : State :=
  if s.registered then { s with main := .exited } else { s with registered := true, main := next }

/-- `main` up to its next call. -/
def main (s : State) : Option State :=
  if s.handler = .none then
    match s.main with
    | .signal => some { s with main := .mqNotify }
    | .mqNotify => some (mqNotify s .sigBlock)
    | .sigBlock => some { s with main := .testFlag }
    | .testFlag => some { s with main := if s.mqFlag then .clearFlag else .sigsuspend }
    | .sigsuspend => none
    | .clearFlag => some { s with mqFlag := false, main := .mqNotifyAgain }
    | .mqNotifyAgain => some (mqNotify s .mqReceive)
    | .mqReceive =>
      match s.queue with
      | [] => some { s with main := .sigUnblock }
      | _ :: queue => some { s with queue }
    | .sigUnblock => some { s with main := .sigBlock }
    | .exited => none
  else none

/-- A signal ends `sigsuspend` when its handler returns. -/
def sigUsr1 (s : State) : Option State :=
  match s.handler with
  | .none => none
  | .entered => some { s with mqFlag := true, handler := .stored }
  | .stored =>
    some { s with handler := .none, main := if s.main = .sigsuspend then .testFlag else s.main }

/-- Before `Signal`, `SIGUSR1` kills the process. -/
def deliver (s : State) : Option State :=
  if s.pending ∧ s.handler = .none ∧ s.main.masked = false ∧ s.main ≠ .exited then
    if s.main = .signal then some { s with pending := false, main := .exited }
    else some { s with pending := false, handler := .entered }
  else none

/-- The queue is in order of priority, and of arrival within one priority. -/
def mqSend (s : State) (m : Message) : State :=
  let queue :=
    s.queue.takeWhile (m.prio ≤ ·.prio) ++ m :: s.queue.dropWhile (m.prio ≤ ·.prio)
  if s.queue = [] ∧ s.registered then { s with queue, registered := false, pending := true }
  else { s with queue }

/-- `kill` is a `SIGUSR1` from somewhere else. -/
inductive Label
  | main
  | sigUsr1
  | deliver
  | arrive (m : Message)
  | kill
  deriving DecidableEq

def step (capacity : Nat) (s : State) : Label → Option State
  | .main => main s
  | .sigUsr1 => sigUsr1 s
  | .deliver => deliver s
  | .arrive m => if s.queue.length < capacity then some (mqSend s m) else none
  | .kill => some { s with pending := true }

def system (capacity : Nat) (queue : List Message) : Lts State Label where
  init := ⟨.signal, .none, false, queue, false, false⟩
  step := step capacity

/-- Suspended with nothing to wake it, and a message in the queue. -/
def Missed (s : State) : Prop :=
  s.main = .sigsuspend ∧ s.mqFlag = false ∧ s.pending = false ∧ s.handler = .none ∧ s.queue ≠ []

instance (s : State) : Decidable (Missed s) := by unfold Missed; infer_instance

/-- The first `Mq_notify` finds the queue empty, unless a `SIGUSR1` from
elsewhere has come before it. -/
def RegistersEmpty (s : State) (a : Label) : Prop :=
  a = .main → s.main = .mqNotify → s.handler = .none →
    s.queue = [] ∨ s.mqFlag = true ∨ s.pending = true

instance (s : State) (a : Label) : Decidable (RegistersEmpty s a) := by
  unfold RegistersEmpty; infer_instance

-- ---------------------------------------------------------------------------
-- The invariant
-- ---------------------------------------------------------------------------

/-- A message will not go unnoticed: there is none and the next one is
announced, or an announcement is under way. -/
def Awake (s : State) : Prop :=
  s.registered = true ∧ s.queue = [] ∨ s.mqFlag = true ∨ s.pending = true ∨ s.handler ≠ .none

/-- What holds at each point of `main`. -/
def AtPoint (s : State) : Prop :=
  match s.main with
  | .signal | .mqNotify => s.registered = false
  | .sigBlock | .testFlag | .sigsuspend | .sigUnblock => Awake s
  | .mqReceive => s.registered = true ∨ s.pending = true
  | .clearFlag | .mqNotifyAgain | .exited => True

structure Inv (s : State) : Prop where
  point : AtPoint s
  stored : s.handler = .stored → s.mqFlag = true

section
variable {capacity : Nat} {s s' : State}

theorem mqSend_main (s : State) (m : Message) : (mqSend s m).main = s.main := by
  simp only [mqSend]
  split <;> rfl

theorem awake_mqSend (h : Awake s) (m : Message) : Awake (mqSend s m) := by
  simp only [mqSend]
  split
  · exact .inr (.inr (.inl rfl))
  · rename_i hquiet
    rcases h with ⟨hreg, hempty⟩ | hcoming
    · exact absurd ⟨hempty, hreg⟩ hquiet
    · exact .inr hcoming

theorem atPoint_mqSend (h : AtPoint s) (m : Message) : AtPoint (mqSend s m) := by
  have hmain := mqSend_main s m
  unfold AtPoint at h ⊢
  rw [hmain]
  cases hp : s.main <;> simp only [hp] at h ⊢
  case signal | mqNotify =>
    simp only [mqSend]
    split
    · rfl
    · exact h
  case sigBlock | testFlag | sigsuspend | sigUnblock => exact awake_mqSend h m
  case mqReceive =>
    simp only [mqSend]
    split
    · exact .inr rfl
    · exact h

theorem inv_mqSend (h : Inv s) (m : Message) : Inv (mqSend s m) := by
  refine ⟨atPoint_mqSend h.point m, ?_⟩
  simp only [mqSend]
  split <;> exact h.stored

theorem atPoint_mqNotify (hp : s.registered = false) (hnew : AtPoint
    { s with registered := true, main := next }) : AtPoint (mqNotify s next) := by
  rw [mqNotify, if_neg (by simp [hp])]
  exact hnew

theorem atPoint_main (h : AtPoint s) (hok : RegistersEmpty s .main) (hquiet : s.handler = .none)
    (hstep : main s = some s') : AtPoint s' := by
  rw [main, if_pos hquiet] at hstep
  cases hp : s.main <;> simp only [hp] at hstep <;> simp only [AtPoint, hp] at h
  case signal =>
    cases hstep
    exact h
  case mqNotify =>
    cases hstep
    apply atPoint_mqNotify h
    rcases hok rfl hp hquiet with hempty | hcoming | hcoming
    · exact .inl ⟨rfl, hempty⟩
    · exact .inr (.inl hcoming)
    · exact .inr (.inr (.inl hcoming))
  case sigBlock =>
    cases hstep
    exact h
  case testFlag =>
    cases hstep
    cases hflag : s.mqFlag with
    | true => trivial
    | false =>
      rw [Awake, hflag] at h
      simpa [AtPoint, Awake, hflag] using h
  case sigsuspend => cases hstep
  case clearFlag =>
    cases hstep
    trivial
  case mqNotifyAgain =>
    cases hstep
    unfold mqNotify
    split
    · trivial
    · exact .inl rfl
  case mqReceive =>
    cases hqueue : s.queue with
    | nil =>
      simp only [hqueue, Option.some.injEq] at hstep
      subst hstep
      rcases h with hreg | hcoming
      · exact .inl ⟨hreg, rfl⟩
      · exact .inr (.inr (.inl hcoming))
    | cons m queue =>
      simp only [hqueue, Option.some.injEq] at hstep
      subst hstep
      simpa [AtPoint, hp] using h
  case sigUnblock =>
    cases hstep
    exact h
  case exited => cases hstep

theorem main_handler (hstep : main s = some s') : s.handler = .none ∧ s'.handler = .none := by
  simp only [main, Option.ite_none_right_eq_some] at hstep
  obtain ⟨hquiet, hstep⟩ := hstep
  refine ⟨hquiet, ?_⟩
  cases hp : s.main <;> simp only [hp, mqNotify] at hstep
  case mqReceive =>
    split at hstep <;> cases hstep <;> exact hquiet
  case mqNotify | mqNotifyAgain =>
    split at hstep <;> cases hstep <;> exact hquiet
  all_goals
    cases hstep
    try exact hquiet

theorem inv_main (h : Inv s) (hok : RegistersEmpty s .main) (hstep : main s = some s') :
    Inv s' := by
  obtain ⟨hquiet, hquiet'⟩ := main_handler hstep
  exact ⟨atPoint_main h.point hok hquiet hstep, fun hst => by rw [hquiet'] at hst; cases hst⟩

theorem inv_sigUsr1 (h : Inv s) (hstep : sigUsr1 s = some s') : Inv s' := by
  obtain ⟨hpoint, hstored⟩ := h
  cases hh : s.handler <;> simp only [sigUsr1, hh] at hstep <;> cases hstep
  case entered =>
    refine ⟨?_, fun _ => rfl⟩
    unfold AtPoint at hpoint ⊢
    cases hp : s.main <;> simp only [hp] at hpoint ⊢
    case sigBlock | testFlag | sigsuspend | sigUnblock => exact .inr (.inl rfl)
    all_goals exact hpoint
  case stored =>
    have hflag := hstored hh
    refine ⟨?_, fun hst => by cases hst⟩
    unfold AtPoint at hpoint ⊢
    cases hp : s.main <;> simp only [hp, if_true] at hpoint ⊢
    case sigBlock | testFlag | sigsuspend | sigUnblock => exact .inr (.inl hflag)
    all_goals exact hpoint

theorem inv_deliver (h : Inv s) (hstep : deliver s = some s') : Inv s' := by
  have hpoint := h.point
  simp only [deliver, Option.ite_none_right_eq_some] at hstep
  obtain ⟨⟨-, hquiet, hmask, -⟩, hstep⟩ := hstep
  split at hstep
  · cases hstep
    exact ⟨trivial, h.stored⟩
  · cases hstep
    refine ⟨?_, fun hst => by cases hst⟩
    unfold AtPoint at hpoint ⊢
    cases hp : s.main <;> simp only [hp] at hpoint hmask ⊢
    case signal | mqNotify => exact hpoint
    case sigBlock | sigsuspend => exact .inr (.inr (.inr nofun))
    all_goals cases hmask

theorem inv_step (h : Inv s) (hok : RegistersEmpty s a) (hstep : step capacity s a = some s') :
    Inv s' := by
  cases a with
  | main => exact inv_main h hok hstep
  | sigUsr1 => exact inv_sigUsr1 h hstep
  | deliver => exact inv_deliver h hstep
  | arrive m =>
    simp only [step, Option.ite_none_right_eq_some, Option.some.injEq] at hstep
    obtain ⟨-, rfl⟩ := hstep
    exact inv_mqSend h m
  | kill =>
    cases hstep
    refine ⟨?_, h.stored⟩
    have hpoint := h.point
    unfold AtPoint at hpoint ⊢
    cases hp : s.main <;> simp only [hp] at hpoint ⊢
    case sigBlock | testFlag | sigsuspend | sigUnblock => exact .inr (.inr (.inl rfl))
    case mqReceive => exact .inr trivial
    all_goals exact hpoint

theorem Inv.not_missed (h : Inv s) : ¬ Missed s := by
  rintro ⟨hmain, hflag, hpending, hquiet, hqueue⟩
  have hpoint := h.point
  simp only [AtPoint, hmain] at hpoint
  rcases hpoint with ⟨-, hempty⟩ | hcoming | hcoming | hcoming
  · exact hqueue hempty
  · simp [hflag] at hcoming
  · simp [hpending] at hcoming
  · exact hcoming hquiet

/-- Nothing else happens after the first registration: the receiver suspends
with the message in its queue. -/
theorem missed_of_not_registersEmpty (hno : ¬ RegistersEmpty s a) (hinv : Inv s)
    (hstep : step capacity s a = some s') :
    ∃ as t, (system capacity queue).exec s' as = some t ∧ Missed t := by
  simp only [RegistersEmpty, not_forall, not_or] at hno
  obtain ⟨rfl, hmain, hquiet, hqueue, hflag, hpending⟩ := hno
  have hreg := hinv.point
  simp only [AtPoint, hmain] at hreg
  simp only [step, main, hquiet, hmain, mqNotify, hreg, if_true, Bool.false_eq_true, if_false,
    Option.some.injEq] at hstep
  subst hstep
  rw [Bool.not_eq_true] at hflag hpending
  refine ⟨[.main, .main], { s with registered := true, main := .sigsuspend }, ?_,
    rfl, hflag, hpending, hquiet, hqueue⟩
  simp [Lts.exec, system, step, main, hquiet, hflag]

end

theorem inv_of_reachable (h : (system capacity queue).Reachable RegistersEmpty s) : Inv s :=
  h.invariant (P := Inv) ⟨rfl, nofun⟩ fun _ _ _ hs hok hstep => inv_step hs hok hstep

/-- No message is missed in a run whose first registration finds the queue
empty; one that does not can go on to miss what is there. -/
theorem no_message_missed_iff (capacity : Nat) (queue : List Message) :
    (∀ s, (system capacity queue).Reachable RegistersEmpty s → ¬ Missed s) ∧
    ∀ s a s', (system capacity queue).Reachable RegistersEmpty s → ¬ RegistersEmpty s a →
      step capacity s a = some s' → ∃ as t, (system capacity queue).exec s' as = some t ∧ Missed t :=
  ⟨fun _ h => (inv_of_reachable h).not_missed,
    fun _ _ _ h hno hstep => missed_of_not_registersEmpty hno (inv_of_reachable h) hstep⟩

/-- A message between the registration and the test of the flag wakes the
receiver, which drains the queue and suspends again. -/
theorem no_message_missed_one : ∃ s, (system 1 []).Reachable RegistersEmpty s ∧
    s.main = .sigsuspend ∧ s.registered = true ∧ ¬ Missed s := by
  obtain ⟨s, hs, hcheck⟩ := reachable_of_execIf (system 1 [])
    (fun s a => decide (RegistersEmpty s a)) (fun _ _ hok => of_decide_eq_true hok)
    [.main, .main, .arrive ⟨0, [65]⟩, .main, .main, .deliver, .sigUsr1, .sigUsr1, .main, .main,
      .main, .main, .main, .main, .main, .main]
    (fun s => decide (s.main = .sigsuspend ∧ s.registered = true)) (by decide +kernel)
  obtain ⟨hmain, hreg⟩ := of_decide_eq_true hcheck
  exact ⟨s, hs, hmain, hreg, (no_message_missed_iff 1 []).1 s hs⟩

/-- A message sent before the program starts is never read. -/
theorem first_message_missed :
    ¬ ∀ (capacity : Nat) (queue : List Message) (s : State),
      (system capacity queue).Reachable anyStep s → ¬ Missed s := by
  intro h
  obtain ⟨s, hs, hmissed⟩ := reachable_of_exec (system 1 [⟨0, [65]⟩]) [.main, .main, .main, .main]
    (fun s => decide (Missed s)) (by decide +kernel)
  exact h 1 _ s hs (of_decide_eq_true hmissed)

end DdsAuto.Pxmsgque
