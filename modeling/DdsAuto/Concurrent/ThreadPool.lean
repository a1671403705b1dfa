import DdsAuto.Lib.Lts
import DdsAuto.Lib.Mutex
import Mathlib.Data.Fintype.Basic
import Mathlib.Data.Fintype.Pi

/-!
# `ThreadPool`

Workers, any number of calls of `commit` and one call of `stop`. A task is
known by the number of the call that committed it. `stop` stores `stop_` and
notifies without `cv_mtx_`, so both may fall between a worker's test of the
wait predicate and its blocking. `stop_wakes_iff`: only then does `stop` hang on a
sleeping worker.
-/

namespace DdsAuto.Concurrent.ThreadPool

open Lts

/-- Where a worker is: before the test of `stop_` in its loop; before taking
`cv_mtx_`; in `wait`, before testing the predicate, before blocking and blocked;
with the predicate true; running a task; gone. -/
inductive Worker
  | loopTest
  | lock
  | testPred
  | block
  | blocked (notified : Bool)
  | take
  | run (task : Nat)
  | exited
  deriving DecidableEq, Repr

/-- Where a call of `commit` is. `refused` has returned an invalid future. -/
inductive Commit
  | test
  | refused
  | lock
  | notify
  | returned
  deriving DecidableEq, Repr

/-- What `stop` has done. -/
inductive Stop
  | alive
  | stored
  | notified
  | returned
  deriving DecidableEq, Repr

/-- `executed` are the tasks that have run to their end. -/
structure State (W : Type) where
  stop : Bool
  owner : Option W
  tasks : List Nat
  workers : W → Worker
  commits : List Commit
  stopper : Stop
  executed : List Nat

/-- `commit` is a new call and `committer i` the next step of the call `i`, with
the worker that its `notify_one` wakes; `wake` is a spurious wakeup. -/
inductive Label (W : Type)
  | commit
  | committer (i : Nat) (woken : Option W)
  | worker (w : W)
  | wake (w : W)
  | stop
  deriving DecidableEq

section
variable {W : Type} [DecidableEq W]

def State.setWorker (s : State W) (w : W) (x : Worker) : State W :=
  { s with workers := Function.update s.workers w x }

/-- What a notification does to a worker. -/
def Worker.woken : Worker → Worker
  | .blocked _ => .blocked true
  | x => x

/-- `notify_one` wakes a blocked worker if there is one. -/
def notifyOne [Fintype W] (s : State W) : Option W → Option (State W)
  | some w => if s.workers w = .blocked false then some (s.setWorker w (.blocked true)) else none
  | none => if ∀ w, s.workers w ≠ .blocked false then some s else none

/-- A step of `commit`; the block under the mutex is one. -/
def commit [Fintype W] (s : State W) (i : Nat) (woken : Option W) : Option (State W) :=
  match s.commits[i]? with
  | some .test =>
    some { s with commits := s.commits.set i (if s.stop then .refused else .lock) }
  | some .lock =>
    if s.owner = none then
      some { s with tasks := s.tasks ++ [i], commits := s.commits.set i .notify }
    else none
  | some .notify =>
    (notifyOne s woken).map fun s => { s with commits := s.commits.set i .returned }
  | some .refused | some .returned | none => none

/-- A step of the lambda in `start`. -/
def start (s : State W) (w : W) : Option (State W) :=
  match s.workers w with
  | .loopTest => some (s.setWorker w (if s.stop then .exited else .lock))
  | .lock | .blocked true =>
    if s.owner = none then some { s.setWorker w .testPred with owner := some w } else none
  | .testPred => some (s.setWorker w (if s.stop ∨ s.tasks ≠ [] then .take else .block))
  | .block => some { s.setWorker w (.blocked false) with owner := none }
  | .blocked false => none
  | .take =>
    match s.tasks with
    | [] => some { s.setWorker w .exited with owner := none }
    | i :: tasks => some { s.setWorker w (.run i) with owner := none, tasks }
  | .run i => some { s.setWorker w .loopTest with executed := s.executed ++ [i] }
  | .exited => none

def stop [Fintype W] (s : State W) : Option (State W) :=
  match s.stopper with
  | .alive => some { s with stop := true, stopper := .stored }
  | .stored =>
    some { s with workers := fun w => (s.workers w).woken, stopper := .notified }
  | .notified => if ∀ w, s.workers w = .exited then some { s with stopper := .returned } else none
  | .returned => none

def step [Fintype W] (s : State W) : Label W → Option (State W)
  | .commit => some { s with commits := s.commits ++ [.test] }
  | .committer i woken => commit s i woken
  | .worker w => start s w
  | .wake w =>
    if s.workers w = .blocked false then some (s.setWorker w (.blocked true)) else none
  | .stop => stop s

-- ---------------------------------------------------------------------------
-- What a worker can do
-- ---------------------------------------------------------------------------

/-- Everything one step of a worker can be. -/
inductive Moves (s : State W) (w : W) : State W → Prop
  | leave : s.workers w = .loopTest → s.stop = true → Moves s w (s.setWorker w .exited)
  | again : s.workers w = .loopTest → s.stop = false → Moves s w (s.setWorker w .lock)
  | acquire : s.workers w = .lock ∨ s.workers w = .blocked true → s.owner = none →
      Moves s w { s.setWorker w .testPred with owner := some w }
  | ready : s.workers w = .testPred → s.stop = true ∨ s.tasks ≠ [] →
      Moves s w (s.setWorker w .take)
  | unready : s.workers w = .testPred → s.stop = false → s.tasks = [] →
      Moves s w (s.setWorker w .block)
  | sleep : s.workers w = .block →
      Moves s w { s.setWorker w (.blocked false) with owner := none }
  | giveUp : s.workers w = .take → s.tasks = [] →
      Moves s w { s.setWorker w .exited with owner := none }
  | pop (i : Nat) (tasks : List Nat) : s.workers w = .take → s.tasks = i :: tasks →
      Moves s w { s.setWorker w (.run i) with owner := none, tasks }
  | finish (i : Nat) : s.workers w = .run i →
      Moves s w { s.setWorker w .loopTest with executed := s.executed ++ [i] }

theorem start_moves {s s' : State W} (hstep : start s w = some s') : Moves s w s' := by
  cases hw : s.workers w with
  | loopTest =>
    simp only [start, hw, Option.some.injEq] at hstep
    subst hstep
    split
    · exact .leave hw ‹_›
    · exact .again hw (Bool.not_eq_true _ ▸ ‹¬ _›)
  | lock =>
    simp only [start, hw, Option.ite_none_right_eq_some, Option.some.injEq] at hstep
    obtain ⟨hfree, rfl⟩ := hstep
    exact .acquire (.inl hw) hfree
  | testPred =>
    simp only [start, hw, Option.some.injEq] at hstep
    subst hstep
    split
    · exact .ready hw ‹_›
    · rename_i hpred
      rw [not_or, Bool.not_eq_true, not_not] at hpred
      exact .unready hw hpred.1 hpred.2
  | block =>
    simp only [start, hw, Option.some.injEq] at hstep
    subst hstep
    exact .sleep hw
  | blocked notified =>
    cases notified with
    | false => simp [start, hw] at hstep
    | true =>
      simp only [start, hw, Option.ite_none_right_eq_some, Option.some.injEq] at hstep
      obtain ⟨hfree, rfl⟩ := hstep
      exact .acquire (.inr hw) hfree
  | take =>
    simp only [start, hw] at hstep
    split at hstep
    · cases hstep
      exact .giveUp hw ‹_›
    · cases hstep
      exact .pop _ _ hw ‹_›
  | run i =>
    simp only [start, hw, Option.some.injEq] at hstep
    subst hstep
    exact .finish i hw
  | exited => simp [start, hw] at hstep

end

/-- `thread_num_` as the constructor sets it. -/
def threadNum (num : Nat) : Nat := if num < 1 then 1 else num

abbrev Thread (num : Nat) : Type := Fin (threadNum num)

theorem threadNum_pos (num : Nat) : 0 < threadNum num := by
  unfold threadNum
  split <;> omega

def Thread.first (num : Nat) : Thread num := ⟨0, threadNum_pos num⟩

instance (num : Nat) : Nonempty (Thread num) := ⟨.first num⟩

def system (num : Nat) : Lts (State (Thread num)) (Label (Thread num)) where
  init :=
    { stop := false, owner := none, tasks := [], workers := fun _ => .loopTest, commits := []
      stopper := .alive, executed := [] }
  step := step

-- ---------------------------------------------------------------------------
-- `stop` and the sleeping workers
-- ---------------------------------------------------------------------------

/-- `stop` is past `notify_all` while a worker is blocked, or about to block,
with no notification for it. -/
def Hangs (s : State W) : Prop :=
  (s.stopper = .notified ∨ s.stopper = .returned) ∧
    ∃ w, s.workers w = .block ∨ s.workers w = .blocked false

instance [Fintype W] (s : State W) : Decidable (Hangs s) := by unfold Hangs; infer_instance

/-- `notify_all` does not fall between a worker's false test of the predicate
and its blocking. -/
def NotifiesOutsideWindow (s : State W) (a : Label W) : Prop :=
  a = .stop → s.stopper = .stored → ∀ w, s.workers w ≠ .block

instance [Fintype W] [DecidableEq W] (s : State W) (a : Label W) :
    Decidable (NotifiesOutsideWindow s a) := by
  unfold NotifiesOutsideWindow; infer_instance

/-- Neither blocked without a notification nor about to be. -/
def Worker.Awake (x : Worker) : Prop := x ≠ .block ∧ x ≠ .blocked false

structure StopInv (s : State W) : Prop where
  stored : s.stopper = .alive ∨ s.stop = true
  notified : s.stopper = .notified ∨ s.stopper = .returned → ∀ w, (s.workers w).Awake

section
variable {W : Type} {s s' : State W} {w : W} {x : Worker}

theorem woken_awake (h : x ≠ .block) : x.woken.Awake := by
  cases x <;> simp_all [Worker.woken, Worker.Awake]

theorem stopInv_stop [Fintype W] (h : StopInv s) (hok : NotifiesOutsideWindow s .stop)
    (hstep : stop s = some s') : StopInv s' := by
  cases hs : s.stopper <;> simp only [stop, hs] at hstep
  case alive =>
    cases hstep
    exact ⟨.inr rfl, by simp⟩
  case stored =>
    cases hstep
    have hset : s.stop = true := by simpa [hs] using h.stored
    exact ⟨.inr hset, fun _ v => woken_awake (hok rfl hs v)⟩
  case notified =>
    simp only [Option.ite_none_right_eq_some, Option.some.injEq] at hstep
    obtain ⟨-, rfl⟩ := hstep
    have hset : s.stop = true := by simpa [hs] using h.stored
    exact ⟨.inr hset, fun _ => h.notified (.inl hs)⟩
  case returned => cases hstep

variable [DecidableEq W]

/-- One worker moves, and `stop` does not. -/
theorem StopInv.move (h : StopInv s) (hstop : s'.stop = s.stop) (hstopper : s'.stopper = s.stopper)
    (hworkers : s'.workers = Function.update s.workers w x)
    (hx : s.stop = true → (s.workers w).Awake → x.Awake) : StopInv s' := by
  refine ⟨by rw [hstopper, hstop]; exact h.stored, fun hpast => ?_⟩
  rw [hstopper] at hpast
  have hawake := h.notified hpast
  have hset : s.stop = true := by
    rcases h.stored with halive | hset
    · rw [halive] at hpast
      rcases hpast with hn | hr
      · cases hn
      · cases hr
    · exact hset
  rw [hworkers]
  exact (Function.forall_update_iff s.workers fun _ x => x.Awake).mpr
    ⟨hx hset (hawake w), fun v _ => hawake v⟩

theorem stopInv_moves (h : StopInv s) (hmove : Moves s w s') : StopInv s' := by
  cases hmove with
  | leave | again | ready | giveUp | acquire | finish =>
    exact h.move rfl rfl rfl fun _ _ => ⟨nofun, nofun⟩
  | pop => exact h.move rfl rfl rfl fun _ _ => ⟨nofun, nofun⟩
  | unready _ hclear => exact h.move rfl rfl rfl fun hset => by simp [hclear] at hset
  | sleep hw => exact h.move rfl rfl rfl fun _ hawake => absurd hw hawake.1

variable [Fintype W]

theorem stopInv_notifyOne (h : StopInv s) (hstep : notifyOne s woken = some s') : StopInv s' := by
  cases woken with
  | none =>
    simp only [notifyOne, Option.ite_none_right_eq_some, Option.some.injEq] at hstep
    obtain ⟨-, rfl⟩ := hstep
    exact h
  | some w =>
    simp only [notifyOne, Option.ite_none_right_eq_some, Option.some.injEq] at hstep
    obtain ⟨-, rfl⟩ := hstep
    exact h.move rfl rfl rfl fun _ _ => ⟨nofun, nofun⟩

theorem stopInv_commit (h : StopInv s) (hstep : commit s i woken = some s') : StopInv s' := by
  unfold commit at hstep
  split at hstep
  · cases hstep
    exact ⟨h.stored, h.notified⟩
  · simp only [Option.ite_none_right_eq_some, Option.some.injEq] at hstep
    obtain ⟨-, rfl⟩ := hstep
    exact ⟨h.stored, h.notified⟩
  · obtain ⟨t, ht, rfl⟩ := Option.map_eq_some_iff.mp hstep
    have hnew := stopInv_notifyOne h ht
    exact ⟨hnew.stored, hnew.notified⟩
  · cases hstep
  · cases hstep
  · cases hstep

theorem stopInv_step (h : StopInv s) (hok : NotifiesOutsideWindow s a)
    (hstep : step s a = some s') : StopInv s' := by
  cases a with
  | commit =>
    cases hstep
    exact ⟨h.stored, h.notified⟩
  | committer i woken => exact stopInv_commit h hstep
  | worker w => exact stopInv_moves h (start_moves hstep)
  | wake w =>
    simp only [step, Option.ite_none_right_eq_some, Option.some.injEq] at hstep
    obtain ⟨-, rfl⟩ := hstep
    exact h.move rfl rfl rfl fun _ _ => ⟨nofun, nofun⟩
  | stop => exact stopInv_stop h hok hstep

end

/-- `stop` hangs on no sleeping worker as long as it notifies outside the
window, and notifying inside it hangs at once. -/
theorem stop_wakes_iff (num : Nat) :
    (∀ s, (system num).Reachable NotifiesOutsideWindow s → ¬ Hangs s) ∧
    ∀ s a s', (system num).Reachable anyStep s → ¬ NotifiesOutsideWindow s a →
      (system num).step s a = some s' → Hangs s' := by
  constructor
  · intro s h
    have hinv : StopInv s :=
      h.invariant (P := StopInv) ⟨.inl rfl, by simp [system]⟩
        fun _ _ _ hs hok hstep => stopInv_step hs hok hstep
    rintro ⟨hpast, w, hblock | hblocked⟩
    · exact (hinv.notified hpast w).1 hblock
    · exact (hinv.notified hpast w).2 hblocked
  · intro s a s' _ hno hstep
    simp only [NotifiesOutsideWindow, not_forall, not_not] at hno
    obtain ⟨rfl, hs, w, hw⟩ := hno
    simp only [system, step, stop, hs, Option.some.injEq] at hstep
    subst hstep
    exact ⟨.inl rfl, w, .inl (by simp [hw, Worker.woken])⟩

/-- Two workers, one asleep and one at its task when `stop` notifies. -/
theorem stop_wakes_iff_two : ∃ s, (system 2).Reachable NotifiesOutsideWindow s ∧
    s.stopper = .returned ∧ ¬ Hangs s := by
  obtain ⟨s, hs, hcheck⟩ := reachable_of_execIf (system 2)
    (fun s a => decide (NotifiesOutsideWindow s a)) (fun _ _ hok => of_decide_eq_true hok)
    (let w := Thread.first 2
     let v : Thread 2 := ⟨1, by decide⟩
     [.worker w, .worker w, .worker w, .worker w, .commit, .committer 0 none, .worker v,
      .committer 0 none, .worker v, .worker v, .worker v, .committer 0 (some w), .stop, .stop,
      .worker v, .worker v, .worker w, .worker w, .worker w, .stop])
    (fun s => s.stopper == .returned) (by decide +kernel)
  exact ⟨s, hs, beq_iff_eq.mp hcheck, (stop_wakes_iff 2).1 s hs⟩

/-- A worker finds no task and `stop_` clear; `stop` stores and notifies; then
the worker blocks for good. -/
theorem stop_loses_wakeup :
    ¬ ∀ (num : Nat) (s : State (Thread num)), (system num).Reachable anyStep s → ¬ Hangs s := by
  intro h
  obtain ⟨s, hs, hhangs⟩ := reachable_of_exec (system 1)
    (let w := Thread.first 1
     [.worker w, .worker w, .worker w, .stop, .stop, .worker w])
    (fun s => decide (Hangs s)) (by decide +kernel)
  exact h 1 s hs (of_decide_eq_true hhangs)

end DdsAuto.Concurrent.ThreadPool
