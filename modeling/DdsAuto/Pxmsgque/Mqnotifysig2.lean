import DdsAuto.Pxmsgque.Notified

/-!
# `mqnotifysig2`

The loop of `mqnotifysig3` with one blocking `Mq_receive` in place of the drain.
A signal then stands for one message: as long as every receive empties the queue
no message is missed, and from the first one that does not, or where the first
registration finds a message, nothing is ever read again.
-/

namespace DdsAuto.Pxmsgque.Mqnotifysig2

open Lts

/-- Where `main` is; each point is before the call it names, but `receiving` is
in `Mq_receive`, blocked. -/
inductive Main
  | signal
  | mqNotify
  | sigBlock
  | testFlag
  | sigsuspend
  | clearFlag
  | mqNotifyAgain
  | mqReceive
  | receiving
  | sigUnblock
  | exited
  deriving DecidableEq, Repr

/-- `sig_usr1`: not running, before its store, before its return. -/
inductive Handler
  | none
  | entered
  | stored
  deriving DecidableEq, Repr

structure State where
  main : Main
  handler : Handler
  mqflag : Bool
  pending : Bool
  mq : Mq
  read : List Message
  deriving Repr

/-- `SIGUSR1` is blocked; `sigsuspend` waits with no signal blocked. -/
def Main.masked : Main → Bool
  | .testFlag | .clearFlag | .mqNotifyAgain | .mqReceive | .receiving | .sigUnblock => true
  | _ => false

/-- `Mq_notify`, which ends the program where a registration exists. -/
def mqNotify (s : State) (next : Main) : State :=
  if s.mq.registered then { s with main := .exited }
  else { s with main := next, mq.registered := true }

/-- `main` up to its next call. -/
def main (s : State) : Option State :=
  if s.handler = .none then
    match s.main with
    | .signal => some { s with main := .mqNotify }
    | .mqNotify => some (mqNotify s .sigBlock)
    | .sigBlock => some { s with main := .testFlag }
    | .testFlag => some { s with main := if s.mqflag then .clearFlag else .sigsuspend }
    | .sigsuspend => none
    | .clearFlag => some { s with mqflag := false, main := .mqNotifyAgain }
    | .mqNotifyAgain => some (mqNotify s .mqReceive)
    | .mqReceive =>
      match s.mq.queue with
      | [] => some { s with main := .receiving }
      | m :: queue =>
        some { s with main := .sigUnblock, mq.queue := queue, read := s.read ++ [m] }
    | .receiving => none
    | .sigUnblock => some { s with main := .sigBlock }
    | .exited => none
  else none

/-- A signal ends `sigsuspend` when its handler returns. -/
def sigUsr1 (s : State) : Option State :=
  match s.handler with
  | .none => none
  | .entered => some { s with mqflag := true, handler := .stored }
  | .stored =>
    some { s with handler := .none, main := if s.main = .sigsuspend then .testFlag else s.main }

/-- Before `Signal`, `SIGUSR1` kills the process. -/
def deliver (s : State) : Option State :=
  if s.pending ∧ s.handler = .none ∧ s.main.masked = false ∧ s.main ≠ .exited then
    if s.main = .signal then some { s with pending := false, main := .exited }
    else some { s with pending := false, handler := .entered }
  else none

/-- A receiver that is blocked takes the message, and nothing is announced. -/
def mqSend (s : State) (m : Message) : State :=
  if s.main = .receiving then { s with main := .sigUnblock, read := s.read ++ [m] }
  else { s with mq := s.mq.send m, pending := s.pending || decide s.mq.Announces }

/-- `kill` is a `SIGUSR1` from somewhere else. -/
inductive Label
  | main
  | sigUsr1
  | deliver
  | arrive (m : Message)
  | kill
  deriving DecidableEq

def step (capacity : Nat) (s : State) : Label → Option State
  | .main => main s
  | .sigUsr1 => sigUsr1 s
  | .deliver => deliver s
  | .arrive m => if s.mq.queue.length < capacity then some (mqSend s m) else none
  | .kill => some { s with pending := true }

def system (capacity : Nat) (queue : List Message) : Lts State Label where
  init := ⟨.signal, .none, false, false, ⟨queue, false⟩, []⟩
  step := step capacity

/-- Suspended with nothing to wake it, and a message in the queue. -/
def Missed (s : State) : Prop :=
  s.main = .sigsuspend ∧ s.mqflag = false ∧ s.pending = false ∧ s.handler = .none ∧
    s.mq.queue ≠ []

instance (s : State) : Decidable (Missed s) := by unfold Missed; infer_instance

/-- Signals come from the queue only, the first registration finds the queue
empty, and every receive takes the only message there is. -/
def OneByOne (s : State) (a : Label) : Prop :=
  a ≠ .kill ∧ (a = .main → s.handler = .none →
    (s.main = .mqNotify → s.mq.queue = []) ∧ (s.main = .mqReceive → s.mq.queue.length ≤ 1))

instance (s : State) (a : Label) : Decidable (OneByOne s a) := by
  unfold OneByOne; infer_instance

-- ---------------------------------------------------------------------------
-- One announcement for one message
-- ---------------------------------------------------------------------------

def Handler.carries : Handler → Nat
  | .entered => 1
  | _ => 0

def Main.carries : Main → Nat
  | .mqNotifyAgain => 1
  | _ => 0

/-- The registration, or what has become of it. -/
def tokens (s : State) : Nat :=
  s.mq.registered.toNat + s.pending.toNat + s.handler.carries + s.mqflag.toNat + s.main.carries

/-- `main` has not registered yet. -/
def Main.Early : Main → Prop
  | .signal | .mqNotify => True
  | _ => False

/-- The queue is empty while the registration stands, and not once it has been
used up, up to the receive. -/
structure Inv (s : State) : Prop where
  running : s.main ≠ .exited ∧ s.main ≠ .receiving
  early : s.main.Early → tokens s = 0
  one : ¬ s.main.Early → tokens s = 1
  stored : s.handler = .stored → s.mqflag = true
  woken : s.main = .clearFlag → s.mqflag = true
  unannounced : s.mq.registered = true → s.main ≠ .mqReceive → s.mq.queue = []
  announced : ¬ s.main.Early → s.mq.registered = false → s.mq.queue ≠ []
  received : s.main = .mqReceive → s.mq.registered = true ∧ s.mq.queue ≠ []

section
variable {capacity : Nat} {queue : List Message} {s s' : State} {a : Label}

theorem Inv.not_early (h : Inv s) (htok : 0 < tokens s) : ¬ s.main.Early := fun he => by
  have := h.early he
  omega

theorem inv_main (h : Inv s) (hok : OneByOne s .main) (hstep : main s = some s') : Inv s' := by
  simp only [main, Option.ite_none_right_eq_some] at hstep
  obtain ⟨hquiet, hstep⟩ := hstep
  obtain ⟨hfirst, hone⟩ := hok.2 rfl hquiet
  obtain ⟨hrun, hearly, htok, hstored, hwoken, hun, hann, hrec⟩ := h
  cases hp : s.main <;> simp only [hp, Main.Early, reduceCtorEq, not_true, not_false_iff,
    forall_true_left, false_implies, ne_eq] at hstep hearly htok hun hann hrec hrun
  case signal =>
    cases hstep
    refine ⟨⟨nofun, nofun⟩, fun _ => ?_, fun he => (he trivial).elim, hstored, nofun,
      fun hr _ => hun hr, fun he => (he trivial).elim, nofun⟩
    simpa [tokens, hp, Main.carries] using hearly
  case mqNotify =>
    cases hstep
    simp only [tokens, hp, Main.carries] at hearly
    have hreg : s.mq.registered = false := by
      cases hr : s.mq.registered
      · rfl
      · simp [hr] at hearly
    rw [mqNotify, hreg, if_neg Bool.false_ne_true]
    refine ⟨⟨nofun, nofun⟩, fun he => he.elim, fun _ => ?_, hstored, nofun,
      fun _ _ => hfirst hp, nofun, nofun⟩
    simp only [tokens, Main.carries, Bool.toNat_true]
    omega
  case sigBlock =>
    cases hstep
    exact ⟨⟨nofun, nofun⟩, fun he => he.elim, fun _ => by simpa [tokens, hp, Main.carries] using htok,
      hstored, nofun, fun hr _ => hun hr, fun _ => hann, nofun⟩
  case testFlag =>
    cases hstep
    split
    · rename_i hflag
      exact ⟨⟨nofun, nofun⟩, fun he => he.elim,
        fun _ => by simpa [tokens, hp, Main.carries] using htok, hstored, fun _ => hflag,
        fun hr _ => hun hr, fun _ => hann, nofun⟩
    · exact ⟨⟨nofun, nofun⟩, fun he => he.elim,
        fun _ => by simpa [tokens, hp, Main.carries] using htok, hstored, nofun,
        fun hr _ => hun hr, fun _ => hann, nofun⟩
  case clearFlag =>
    cases hstep
    have hflag := hwoken hp
    refine ⟨⟨nofun, nofun⟩, fun he => he.elim, fun _ => ?_, fun hst => ?_, nofun,
      fun hr _ => hun hr, fun _ => hann, nofun⟩
    · simpa [tokens, hp, hflag, Main.carries] using htok
    · rw [hquiet] at hst
      cases hst
  case mqNotifyAgain =>
    cases hstep
    simp only [tokens, hp, Main.carries] at htok
    have hreg : s.mq.registered = false := by
      cases hr : s.mq.registered
      · rfl
      · simp [hr] at htok
    rw [mqNotify, hreg, if_neg Bool.false_ne_true]
    refine ⟨⟨nofun, nofun⟩, fun he => he.elim, fun _ => ?_, hstored, nofun,
      fun _ hne => absurd rfl hne, nofun, fun _ => ⟨rfl, hann hreg⟩⟩
    simp only [tokens, Main.carries, Bool.toNat_true]
    omega
  case mqReceive =>
    obtain ⟨hreg, hne⟩ := hrec
    obtain ⟨m, hqueue⟩ : ∃ m, s.mq.queue = [m] := by
      have hlen := hone hp
      match hq : s.mq.queue with
      | [] => exact absurd hq hne
      | [m] => exact ⟨m, rfl⟩
      | _ :: _ :: _ =>
        rw [hq] at hlen
        simp at hlen
    simp only [hqueue, Option.some.injEq] at hstep
    subst hstep
    refine ⟨⟨nofun, nofun⟩, fun he => he.elim, fun _ => ?_, hstored, nofun, fun _ _ => rfl,
      fun _ hr => ?_, nofun⟩
    · simpa [tokens, hp, Main.carries] using htok
    · rw [hreg] at hr
      cases hr
  case sigUnblock =>
    cases hstep
    exact ⟨⟨nofun, nofun⟩, fun he => he.elim, fun _ => by simpa [tokens, hp, Main.carries] using htok,
      hstored, nofun, fun hr _ => hun hr, fun _ => hann, nofun⟩

theorem inv_sigUsr1 (h : Inv s) (hstep : sigUsr1 s = some s') : Inv s' := by
  cases hh : s.handler <;> simp only [sigUsr1, hh] at hstep <;> cases hstep
  case entered =>
    have hlate := h.not_early (by simp only [tokens, hh, Handler.carries]; omega)
    have hone := h.one hlate
    have hflag : s.mqflag = false := by
      cases hf : s.mqflag
      · rfl
      · simp [tokens, hh, hf, Handler.carries] at hone
        omega
    refine ⟨h.running, fun he => absurd he hlate, fun _ => ?_, fun _ => rfl, fun _ => rfl,
      h.unannounced, h.announced, h.received⟩
    simp only [tokens, hh, hflag, Handler.carries, Bool.toNat_true, Bool.toNat_false] at hone ⊢
    omega
  case stored =>
    obtain ⟨hrun, hearly, htok, hstored, hwoken, hun, hann, hrec⟩ := h
    have hflag := hstored hh
    by_cases hp : s.main = .sigsuspend
    · simp only [hp, if_true]
      rw [hp] at htok
      refine ⟨⟨nofun, nofun⟩, fun he => he.elim, fun _ => ?_, nofun, nofun,
        fun hr _ => hun hr (by rw [hp]; nofun), fun _ => hann (by rw [hp]; exact id), nofun⟩
      simpa [tokens, hp, hh, Main.carries, Handler.carries] using htok id
    · simp only [hp, if_false]
      exact ⟨hrun, fun he => by simpa [tokens, hh, Handler.carries] using hearly he,
        fun he => by simpa [tokens, hh, Handler.carries] using htok he, nofun, hwoken, hun, hann, hrec⟩

theorem inv_deliver (h : Inv s) (hstep : deliver s = some s') : Inv s' := by
  simp only [deliver, Option.ite_none_right_eq_some] at hstep
  obtain ⟨⟨hpend, hquiet, hmask, -⟩, hstep⟩ := hstep
  have hlate := h.not_early (by simp only [tokens, hpend, Bool.toNat_true]; omega)
  have hone := h.one hlate
  rw [if_neg fun hp => hlate (by rw [hp]; trivial)] at hstep
  cases hstep
  refine ⟨h.running, fun he => absurd he hlate, fun _ => ?_, nofun, h.woken, h.unannounced,
    h.announced, h.received⟩
  simp only [tokens, hpend, hquiet, Handler.carries, Bool.toNat_true, Bool.toNat_false] at hone ⊢
  omega

theorem inv_mqSend (h : Inv s) (m : Message) : Inv (mqSend s m) := by
  obtain ⟨hrun, hearly, htok, hstored, hwoken, hun, hann, hrec⟩ := h
  have hne := Notified.insert_ne_nil s.mq m
  rw [mqSend, if_neg hrun.2]
  by_cases hann' : s.mq.Announces
  · obtain ⟨hempty, hreg⟩ := hann'
    have hlate : ¬ s.main.Early := fun he => by
      have := hearly he
      simp [tokens, hreg] at this
    have hone := htok hlate
    have hsend : (s.mq.send m).registered = false := by simp [Mq.send, Mq.Announces, hempty, hreg]
    have hpend : s.pending = false := by
      cases hp : s.pending
      · rfl
      · simp [tokens, hreg, hp] at hone
        omega
    refine ⟨hrun, fun he => absurd he hlate, fun _ => ?_, hstored, hwoken, fun hr => ?_,
      fun _ _ => hne, fun hp => absurd hempty (hrec hp).2⟩
    · simp only [tokens, hreg, hsend, hpend, Bool.toNat_true, Bool.toNat_false] at hone ⊢
      rw [Bool.false_or, decide_eq_true (show s.mq.Announces from ⟨hempty, hreg⟩), Bool.toNat_true]
      omega
    · rw [hsend] at hr
      cases hr
  · have hsend := Notified.send_of_not_announces hann' m
    have htokens : tokens { s with mq := s.mq.send m, pending := s.pending || decide s.mq.Announces } =
        tokens s := by
      simp [tokens, hsend, hann']
    refine ⟨hrun, fun he => by rw [htokens]; exact hearly he, fun he => by rw [htokens]; exact htok he,
      hstored, hwoken, fun hr hp => ?_, fun _ _ => hne, fun hp => ?_⟩
    · rw [hsend] at hr
      exact absurd ⟨hun hr hp, hr⟩ hann'
    · rw [hsend]
      exact ⟨(hrec hp).1, hne⟩

theorem inv_step (h : Inv s) (hok : OneByOne s a) (hstep : step capacity s a = some s') :
    Inv s' := by
  cases a with
  | main => exact inv_main h hok hstep
  | sigUsr1 => exact inv_sigUsr1 h hstep
  | deliver => exact inv_deliver h hstep
  | arrive m =>
    simp only [step, Option.ite_none_right_eq_some, Option.some.injEq] at hstep
    rw [← hstep.2]
    exact inv_mqSend h m
  | kill => exact absurd rfl hok.1

theorem inv_of_reachable (h : (system capacity queue).Reachable OneByOne s) : Inv s :=
  h.invariant (P := Inv)
    ⟨⟨nofun, nofun⟩, fun _ => rfl, fun he => (he trivial).elim, nofun, nofun, nofun,
      fun he => (he trivial).elim, nofun⟩
    fun _ _ _ hs hok hstep => inv_step hs hok hstep

theorem Inv.not_missed (h : Inv s) : ¬ Missed s := by
  rintro ⟨hmain, hflag, hpend, hquiet, hqueue⟩
  have hone := h.one (by rw [hmain]; exact id)
  simp only [tokens, hmain, hflag, hpend, hquiet, Handler.carries, Main.carries,
    Bool.toNat_false] at hone
  have hreg : s.mq.registered = true := by
    cases hr : s.mq.registered
    · simp [hr] at hone
    · rfl
  exact hqueue (h.unannounced hreg (by rw [hmain]; nofun))

-- ---------------------------------------------------------------------------
-- After that
-- ---------------------------------------------------------------------------

/-- The registration stands over a queue that is not empty, so that nothing is
announced, and nothing else is on its way. -/
structure Lost (s : State) : Prop where
  point : s.main = .sigBlock ∨ s.main = .testFlag ∨ s.main = .sigsuspend ∨ s.main = .sigUnblock
  registered : s.mq.registered = true
  queue : s.mq.queue ≠ []
  quiet : s.handler = .none
  flag : s.mqflag = false
  pending : s.pending = false

theorem lost_step (h : Lost s) (hno : a ≠ .kill) (hstep : step capacity s a = some s') :
    Lost s' ∧ s'.read = s.read := by
  obtain ⟨hpoint, hreg, hqueue, hquiet, hflag, hpend⟩ := h
  cases a with
  | main =>
    simp only [step, main, hquiet, if_true] at hstep
    rcases hpoint with hp | hp | hp | hp <;> simp only [hp, hflag, Bool.false_eq_true,
      if_false] at hstep <;> cases hstep
    · exact ⟨⟨.inr (.inl rfl), hreg, hqueue, rfl, rfl, hpend⟩, rfl⟩
    · exact ⟨⟨.inr (.inr (.inl rfl)), hreg, hqueue, rfl, rfl, hpend⟩, rfl⟩
    · exact ⟨⟨.inl rfl, hreg, hqueue, rfl, rfl, hpend⟩, rfl⟩
  | sigUsr1 => simp [step, sigUsr1, hquiet] at hstep
  | deliver => simp [step, deliver, hpend] at hstep
  | arrive m =>
    simp only [step, Option.ite_none_right_eq_some, Option.some.injEq] at hstep
    obtain ⟨-, rfl⟩ := hstep
    have hann : ¬ s.mq.Announces := fun hann => hqueue hann.1
    have hp : s.main ≠ .receiving := by
      rcases hpoint with hp | hp | hp | hp <;> rw [hp] <;> nofun
    rw [mqSend, if_neg hp]
    exact ⟨⟨hpoint, (Notified.send_of_not_announces hann m).trans hreg, Notified.insert_ne_nil s.mq m,
      hquiet, hflag, by simp [hpend, hann]⟩, rfl⟩
  | kill => exact absurd rfl hno

theorem lost_exec (h : Lost s) (hno : Label.kill ∉ as)
    (hrun : (system capacity queue).exec s as = some s') : Lost s' ∧ s'.read = s.read := by
  induction as generalizing s with
  | nil =>
    cases hrun
    exact ⟨h, rfl⟩
  | cons a as ih =>
    simp only [Lts.exec, Option.bind_eq_some_iff] at hrun
    obtain ⟨t, hstep, hrest⟩ := hrun
    obtain ⟨ht, hread⟩ := lost_step h (fun heq => hno (heq ▸ List.mem_cons_self)) hstep
    obtain ⟨hs', hread'⟩ := ih ht (fun hmem => hno (List.mem_cons_of_mem _ hmem)) hrest
    exact ⟨hs', hread'.trans hread⟩

/-- A registration over a message, or a receive that leaves one. -/
theorem lost_of_not_oneByOne (h : Inv s) (hno : ¬ OneByOne s a) (hkill : a ≠ .kill)
    (hstep : step capacity s a = some s') : Lost s' := by
  simp only [OneByOne, not_and, not_forall] at hno
  obtain ⟨rfl, hquiet, hno⟩ := hno hkill
  simp only [step, main, hquiet, if_true] at hstep
  by_cases hp : s.main = .mqNotify
  · have hqueue : s.mq.queue ≠ [] := fun hempty => by
      obtain ⟨hrec, -⟩ := hno fun _ => hempty
      rw [hp] at hrec
      cases hrec
    have hzero := h.early (by rw [hp]; trivial)
    simp only [tokens, hp, hquiet, Handler.carries, Main.carries] at hzero
    have hbits : s.mq.registered = false ∧ s.mqflag = false ∧ s.pending = false := by
      cases hr : s.mq.registered <;> cases hf : s.mqflag <;> cases hpd : s.pending <;>
        simp [hr, hf, hpd] at hzero ⊢
    obtain ⟨hreg, hflag, hpend⟩ := hbits
    simp only [hp, mqNotify, hreg, Bool.false_eq_true, if_false, Option.some.injEq] at hstep
    subst hstep
    exact ⟨.inl rfl, rfl, hqueue, hquiet, hflag, hpend⟩
  · obtain ⟨hp, hlen⟩ := hno fun hn => absurd hn hp
    obtain ⟨hreg, -⟩ := h.received hp
    have hone := h.one (by rw [hp]; exact id)
    simp only [tokens, hp, hquiet, hreg, Handler.carries, Main.carries] at hone
    have hbits : s.mqflag = false ∧ s.pending = false := by
      cases hf : s.mqflag <;> cases hpd : s.pending <;> simp [hf, hpd] at hone ⊢
    obtain ⟨hflag, hpend⟩ := hbits
    match hq : s.mq.queue with
    | [] => simp [hq] at hlen
    | [m] => simp [hq] at hlen
    | m :: m' :: queue =>
      simp only [hp, hq, Option.some.injEq] at hstep
      subst hstep
      exact ⟨.inr (.inr (.inr rfl)), hreg, nofun, rfl, hflag, hpend⟩

end

end DdsAuto.Pxmsgque.Mqnotifysig2
