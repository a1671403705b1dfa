import DdsAuto.Pxmsgque.Notified
import Mathlib.Data.List.Perm.Basic

/-!
# `mqnotifythread1`

Every announcement starts a thread that runs `notify_thread`: it registers again
and receives until the queue is empty. Threads may drain the queue side by side,
and a message may be announced to a new thread while older ones still run.
-/

namespace DdsAuto.Pxmsgque.Mqnotifythread1

open Lts

/-- Where `main` is: before `Mq_notify`, in the loop of `pause`, or gone with the
process. -/
inductive Main
  | mqNotify
  | pause
  | exited
  deriving DecidableEq, Repr

/-- Where a thread of `notify_thread` is; each point is before the call it names. -/
inductive ThreadPc
  | mqNotify
  | mqReceive
  | free
  | exited
  deriving DecidableEq, Repr

/-- `threads` has the threads in the order they were started. -/
structure State where
  main : Main
  threads : List ThreadPc
  mq : Mq
  first : Option (List Message)
  sent : List Message
  read : List Message
  deriving Repr

def main (s : State) : Option State :=
  match s.main with
  | .mqNotify =>
    some { s with
      main := if s.mq.registered then .exited else .pause
      mq.registered := true
      first := some s.mq.queue }
  | .pause | .exited => none

/-- The next call of the `i`-th thread. `Mq_notify` ends the process where a
registration exists. -/
def notifyThread (s : State) (i : Nat) : Option State :=
  if s.main = .exited then none
  else
    match s.threads[i]? with
    | some .mqNotify =>
      if s.mq.registered then
        some { s with main := .exited, threads := s.threads.set i .exited }
      else
        some { s with threads := s.threads.set i .mqReceive, mq.registered := true }
    | some .mqReceive =>
      match s.mq.queue with
      | [] => some { s with threads := s.threads.set i .free }
      | m :: queue => some { s with mq.queue := queue, read := s.read ++ [m] }
    | some .free => some { s with threads := s.threads.set i .exited }
    | some .exited | none => none

/-- A message that is announced starts a thread. -/
def mqSend (s : State) (m : Message) : State :=
  { s with
    mq := s.mq.send m
    sent := s.sent ++ [m]
    threads := if s.mq.Announces then s.threads ++ [.mqNotify] else s.threads }

inductive Label
  | main
  | thread (i : Nat)
  | arrive (m : Message)
  deriving DecidableEq

def step (capacity : Nat) (s : State) : Label → Option State
  | .main => main s
  | .thread i => notifyThread s i
  | .arrive m => if s.mq.queue.length < capacity then some (mqSend s m) else none

def system (capacity : Nat) (queue : List Message) : Lts State Label where
  init := ⟨.mqNotify, [], ⟨queue, false⟩, none, [], []⟩
  step := step capacity

/-- Every thread has run to its end. -/
def Quiet (s : State) : Prop := s.main = .pause ∧ ∀ pc ∈ s.threads, pc = .free ∨ pc = .exited

instance (s : State) : Decidable (Quiet s) := by unfold Quiet; infer_instance

-- ---------------------------------------------------------------------------
-- The carriers of an announcement
-- ---------------------------------------------------------------------------

def abs (s : State) : Notified.State where
  mq := s.mq
  first := s.first
  owed := s.threads.count .mqNotify
  draining := s.threads.count .mqReceive
  read := s.read
  exited := s.main == .exited

/-- `main` registers first, and no thread runs before that. -/
structure Points (s : State) : Prop where
  before : s.main = .mqNotify → s.first = none ∧ s.threads = []
  after : s.main = .pause → s.first ≠ none

/-- What a thread's step adds to and takes from the threads at a point. -/
theorem count_set {ts : List ThreadPc} {i : Nat} {old : ThreadPc} (h : ts[i]? = some old)
    (new pc : ThreadPc) : (ts.set i new).count pc + (if old = pc then 1 else 0) =
      ts.count pc + if new = pc then 1 else 0 := by
  induction ts generalizing i with
  | nil => simp at h
  | cons t ts ih =>
    cases i with
    | zero =>
      simp only [List.getElem?_cons_zero, Option.some.injEq] at h
      subst h
      simp only [List.set_cons_zero, List.count_cons, beq_iff_eq]
      omega
    | succ i =>
      have := ih (i := i) (by simpa using h)
      simp only [List.set_cons_succ, List.count_cons]
      omega

section
variable {capacity : Nat} {queue : List Message} {s s' : State} {a : Label} {i : Nat}

/-- Everything a thread can do. -/
theorem notifyThread_cases (h : notifyThread s i = some s') :
    s.main ≠ .exited ∧
    (s.threads[i]? = some .mqNotify ∧ s.mq.registered = true ∧
        s' = { s with main := .exited, threads := s.threads.set i .exited } ∨
      s.threads[i]? = some .mqNotify ∧ s.mq.registered = false ∧
        s' = { s with threads := s.threads.set i .mqReceive, mq.registered := true } ∨
      s.threads[i]? = some .mqReceive ∧ s.mq.queue = [] ∧
        s' = { s with threads := s.threads.set i .free } ∨
      s.threads[i]? = some .mqReceive ∧ (∃ m queue, s.mq.queue = m :: queue ∧
        s' = { s with mq.queue := queue, read := s.read ++ [m] }) ∨
      s.threads[i]? = some .free ∧ s' = { s with threads := s.threads.set i .exited }) := by
  unfold notifyThread at h
  split at h
  · cases h
  · rename_i hmain
    refine ⟨hmain, ?_⟩
    split at h
    · rename_i hpc
      split at h <;> rename_i hreg <;> cases h
      · exact .inl ⟨hpc, hreg, rfl⟩
      · exact .inr (.inl ⟨hpc, by simpa using hreg, rfl⟩)
    · rename_i hpc
      split at h <;> rename_i hqueue <;> cases h
      · exact .inr (.inr (.inl ⟨hpc, hqueue, rfl⟩))
      · exact .inr (.inr (.inr (.inl ⟨hpc, _, _, hqueue, rfl⟩)))
    · rename_i hpc
      cases h
      exact .inr (.inr (.inr (.inr ⟨hpc, rfl⟩)))
    · cases h
    · cases h

theorem points_thread (h : Points s) (hstep : notifyThread s i = some s') : Points s' := by
  obtain ⟨hbefore, hafter⟩ := h
  obtain ⟨-, hcases⟩ := notifyThread_cases hstep
  have hnot (pc : ThreadPc) (hpc : s.threads[i]? = some pc) : s.main ≠ .mqNotify := fun hp => by
    simp [(hbefore hp).2] at hpc
  rcases hcases with ⟨hpc, -, rfl⟩ | ⟨hpc, -, rfl⟩ | ⟨hpc, -, rfl⟩ | ⟨hpc, _, _, -, rfl⟩ | ⟨hpc, rfl⟩
  · exact ⟨nofun, nofun⟩
  all_goals exact ⟨fun hp => absurd hp (hnot _ hpc), hafter⟩

theorem points_step (h : Points s) (hun : s.first = none → s.mq.registered = false)
    (hstep : step capacity s a = some s') : Points s' := by
  cases a <;> simp only [step] at hstep
  case main =>
    cases hp : s.main <;> simp only [main, hp] at hstep <;> cases hstep
    split <;> exact ⟨nofun, fun _ => nofun⟩
  case thread i => exact points_thread h hstep
  case arrive m =>
    simp only [Option.ite_none_right_eq_some, Option.some.injEq] at hstep
    obtain ⟨-, rfl⟩ := hstep
    refine ⟨fun hp => ?_, h.after⟩
    obtain ⟨hfirst, hthreads⟩ := h.before hp
    have hann : ¬ s.mq.Announces := fun hann => by
      have hreg := hann.2
      rw [hun hfirst] at hreg
      cases hreg
    exact ⟨hfirst, by simp [mqSend, hann, hthreads]⟩

/-- The step is one of the abstract receiver, or none. -/
def Explained (s s' : State) : Prop := Notified.Explained False (abs s) (abs s')

theorem explained_thread (h : Points s) (hstep : notifyThread s i = some s') : Explained s s' := by
  obtain ⟨hmain, hcases⟩ := notifyThread_cases hstep
  have hfirst (pc : ThreadPc) (hpc : s.threads[i]? = some pc) : s.first ≠ none := by
    cases hp : s.main with
    | mqNotify => simp [(h.before hp).2] at hpc
    | pause => exact h.after hp
    | exited => exact absurd hp hmain
  rcases hcases with ⟨hpc, hreg, rfl⟩ | ⟨hpc, hreg, rfl⟩ | ⟨hpc, hqueue, rfl⟩ |
    ⟨hpc, m, queue, hqueue, rfl⟩ | ⟨hpc, rfl⟩
  · have howed := count_set hpc .exited .mqNotify
    have hdrain := count_set hpc .exited .mqReceive
    simp only [reduceCtorEq, if_true, if_false, Nat.add_zero] at howed hdrain
    refine .of_step .answer ?_
    simp [Notified.step, Notified.answer, abs, hreg, hfirst _ hpc, hdrain, ← howed]
  · have howed := count_set hpc .mqReceive .mqNotify
    have hdrain := count_set hpc .mqReceive .mqReceive
    simp only [reduceCtorEq, if_true, if_false, Nat.add_zero] at howed hdrain
    refine .of_step .answer ?_
    simp [Notified.step, Notified.answer, abs, hreg, hfirst _ hpc, hdrain, ← howed]
  · have howed := count_set hpc .free .mqNotify
    have hdrain := count_set hpc .free .mqReceive
    simp only [reduceCtorEq, if_true, if_false, Nat.add_zero] at howed hdrain
    refine .of_step .receive ?_
    simp [Notified.step, Notified.receive, abs, hqueue, howed, ← hdrain]
  · refine .of_step .receive ?_
    have hpos : 0 < s.threads.count .mqReceive :=
      List.count_pos_iff.mpr (List.mem_of_getElem? hpc)
    simp [Notified.step, Notified.receive, abs, hqueue, hpos]
  · have howed := count_set hpc .exited .mqNotify
    have hdrain := count_set hpc .exited .mqReceive
    simp only [reduceCtorEq, if_false, Nat.add_zero] at howed hdrain
    exact .of_eq (by simp [abs, howed, hdrain])

theorem explained_step (h : Points s) (hun : s.first = none → s.mq.registered = false)
    (hstep : step capacity s a = some s') : Explained s s' := by
  cases a <;> simp only [step] at hstep
  case main =>
    cases hp : s.main <;> simp only [main, hp] at hstep <;> cases hstep
    have hfirst := (h.before hp).1
    refine .of_step .register ?_
    simp [Notified.step, Notified.register, abs, hun hfirst, hfirst, hp]
  case thread i => exact explained_thread h hstep
  case arrive m =>
    simp only [Option.ite_none_right_eq_some, Option.some.injEq] at hstep
    obtain ⟨-, rfl⟩ := hstep
    refine .of_step (.arrive m false) ?_
    by_cases hann : s.mq.Announces <;>
      simp [Notified.step, Notified.arrive, abs, mqSend, hann, List.count_append]

-- ---------------------------------------------------------------------------
-- The threads together are one receiver
-- ---------------------------------------------------------------------------

theorem points_of_reachable (h : (system capacity queue).Reachable anyStep s) :
    Points s ∧ (Notified.system queue).Reachable Notified.Genuine (abs s) := by
  induction h with
  | init => exact ⟨⟨fun _ => ⟨rfl, rfl⟩, nofun⟩, .init⟩
  | step hs _ hstep ih =>
    obtain ⟨hpoints, habs⟩ := ih
    have htoken := Notified.token_of_reachable habs
    have hun := fun hfirst => (htoken.before hfirst).1
    exact ⟨points_step hpoints hun hstep,
      habs.follows ((explained_step hpoints hun hstep).genuine htoken id)⟩

/-- What was in the queue and what was sent is what was read and what is left. -/
def Kept (queue : List Message) (s : State) : Prop :=
  (s.read ++ s.mq.queue).Perm (queue ++ s.sent)

theorem insert_perm (mq : Mq) (m : Message) : (mq.insert m).Perm (mq.queue ++ [m]) := by
  have hsplit : mq.queue.takeWhile (m.prio ≤ ·.prio) ++ mq.queue.dropWhile (m.prio ≤ ·.prio) =
      mq.queue := List.takeWhile_append_dropWhile
  refine List.perm_middle.trans ?_
  rw [hsplit]
  exact (List.perm_append_singleton m mq.queue).symm

theorem kept_step (h : Kept queue s) (hstep : step capacity s a = some s') : Kept queue s' := by
  cases a <;> simp only [step] at hstep
  case main =>
    cases hp : s.main <;> simp only [main, hp] at hstep <;> cases hstep
    exact h
  case thread i =>
    obtain ⟨-, hcases⟩ := notifyThread_cases hstep
    rcases hcases with ⟨-, -, rfl⟩ | ⟨-, -, rfl⟩ | ⟨-, -, rfl⟩ | ⟨-, m, q, hqueue, rfl⟩ | ⟨-, rfl⟩
    case inr.inr.inr.inl =>
      simp only [Kept, hqueue] at h ⊢
      simpa using h
    all_goals exact h
  case arrive m =>
    simp only [Option.ite_none_right_eq_some, Option.some.injEq] at hstep
    obtain ⟨-, rfl⟩ := hstep
    have hins := (insert_perm s.mq m).append_left s.read
    rw [← List.append_assoc] at hins
    refine hins.trans ?_
    rw [mqSend, ← List.append_assoc]
    exact h.append_right [m]

end

/-- The registration is never asked for twice, however many threads run; when they
have all run to their ends, the queue has been emptied, unless it was not empty at
the first registration and none of it has been read. Each message is read once. -/
theorem quiet_threads_emptied_queue (capacity : Nat) (queue : List Message) (s : State)
    (h : (system capacity queue).Reachable anyStep s) :
    s.main ≠ .exited ∧ s.threads.count .mqNotify ≤ 1 ∧
    (s.read ++ s.mq.queue).Perm (queue ++ s.sent) ∧
    (Quiet s → s.mq.registered = true ∧ (s.mq.queue = [] ∨ s.read = [] ∧ s.first ≠ some [])) := by
  obtain ⟨hpoints, habs⟩ := points_of_reachable h
  have htoken := Notified.token_of_reachable habs
  refine ⟨fun hexit => ?_, htoken.owed_le, ?_, fun ⟨hmain, hquiet⟩ => ?_⟩
  · have hrun := htoken.running
    simp [abs, hexit] at hrun
  · exact h.invariant (P := Kept queue) (by simp [Kept, system])
      fun _ _ _ hs _ hstep => kept_step hs hstep
  · have howed : s.threads.count .mqNotify = 0 :=
      List.count_eq_zero.mpr fun hmem => by simpa using hquiet _ hmem
    have hdrain : s.threads.count .mqReceive = 0 :=
      List.count_eq_zero.mpr fun hmem => by simpa using hquiet _ hmem
    have hfirst := hpoints.after hmain
    have hone : s.mq.registered.toNat + s.threads.count .mqNotify = 1 := htoken.one hfirst
    refine ⟨?_, Notified.idle habs (by simp [abs, hmain]) hfirst howed hdrain⟩
    cases hreg : s.mq.registered with
    | true => rfl
    | false =>
      rw [hreg, howed] at hone
      cases hone

/-- A second thread starts while the first still drains. -/
theorem quiet_threads_emptied_queue_two : ∃ s, (system 4 []).Reachable anyStep s ∧
    Quiet s ∧ s.threads.length = 2 ∧ s.read.length = 2 ∧ s.mq.queue = [] := by
  obtain ⟨s, hs, hcheck⟩ := reachable_of_exec (system 4 [])
    [.main, .arrive ⟨0, [65]⟩, .thread 0, .thread 0, .arrive ⟨1, [66]⟩, .thread 1, .thread 1,
      .thread 0, .thread 1, .thread 0, .thread 1]
    (fun s => decide (Quiet s ∧ s.threads.length = 2 ∧ s.read.length = 2)) (by decide +kernel)
  obtain ⟨hquiet, hlen, hread⟩ := of_decide_eq_true hcheck
  obtain ⟨-, -, -, hidle⟩ := quiet_threads_emptied_queue 4 [] s hs
  refine ⟨s, hs, hquiet, hlen, hread, (hidle hquiet).2.resolve_right fun hunread => ?_⟩
  rw [hunread.1] at hread
  cases hread

end DdsAuto.Pxmsgque.Mqnotifythread1
