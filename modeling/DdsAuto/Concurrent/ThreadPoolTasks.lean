import DdsAuto.Concurrent.ThreadPool
import DdsAuto.Lib.Threads

/-!
# The tasks of `ThreadPool`

A worker leaves its loop on `stop_` without looking at the queue, and `commit`
tests `stop_` before it takes the mutex. So tasks can be left over when the last
worker leaves, or come after it. `executes_iff`: apart from that every
committed task is executed once before `stop` returns.
-/

namespace DdsAuto.Concurrent.ThreadPool

open Lts Mutex Threads

/-- The call has put its task into the queue. -/
def Commit.enqueued : Commit → Nat
  | .notify | .returned => 1
  | .test | .refused | .lock => 0

/-- Number of times the call `i` has enqueued its task. -/
def State.enqueued (s : State W) (i : Nat) : Nat := s.commits[i]?.elim 0 Commit.enqueued

/-- No task is executed twice or lost, and those of calls that have returned are
done when `stop` has returned. -/
structure Executes (s : State W) : Prop where
  once : ∀ i, s.executed.count i ≤ 1
  kept : ∀ i, s.enqueued i = 1 → i ∈ s.tasks ∨ (∃ w, s.workers w = .run i) ∨ i ∈ s.executed
  done : s.stopper = .returned → ∀ i, s.commits[i]? = some .returned → s.executed.count i = 1

/-- The worker's next step is its last. -/
def Leaves (s : State W) (w : W) : Prop :=
  s.workers w = .loopTest ∧ s.stop = true ∨ s.workers w = .take ∧ s.tasks = []

/-- The last worker leaves with no task in the queue and none on the way to it. -/
def LeavesDrained (s : State W) (a : Label W) : Prop :=
  ∀ w, a = .worker w → Leaves s w → (∀ v, v ≠ w → s.workers v = .exited) →
    s.tasks = [] ∧ .lock ∉ s.commits

instance [Fintype W] [DecidableEq W] (s : State W) (a : Label W) : Decidable (LeavesDrained s a) := by
  unfold LeavesDrained Leaves; infer_instance

-- ---------------------------------------------------------------------------
-- The invariant
-- ---------------------------------------------------------------------------

/-- The worker has `cv_mtx_`. -/
def Worker.Inside : Worker → Prop
  | .testPred | .block | .take => True
  | _ => False

/-- The runs of task `i` under way. -/
def Worker.running (i : Nat) : Worker → Nat
  | .run j => if j = i then 1 else 0
  | _ => 0

/-- Workers leave only after `stop_` is set, and find the predicate true. -/
def WorkerOk (stop : Bool) (tasks : List Nat) : Worker → Prop
  | .exited => stop = true
  | .take => stop = true ∨ tasks ≠ []
  | _ => True

structure Base [Fintype W] (s : State W) : Prop where
  owned : Owned s.owner fun w => (s.workers w).Inside
  stopped : s.stop = true ↔ s.stopper ≠ .alive
  workers : ∀ w, WorkerOk s.stop s.tasks (s.workers w)
  account : ∀ i, s.tasks.count i + total (Worker.running i) s.workers + s.executed.count i = s.enqueued i
  joined : s.stopper = .returned → ∀ w, s.workers w = .exited

/-- Nothing is left, and nothing comes, when the workers are gone. -/
def Drained (s : State W) : Prop :=
  (∀ w, s.workers w = .exited) → s.tasks = [] ∧ .lock ∉ s.commits

section
variable {W : Type} {s s' : State W} {w : W} {x : Worker} {i : Nat}

theorem enqueued_le (s : State W) (i : Nat) : s.enqueued i ≤ 1 := by
  unfold State.enqueued
  cases s.commits[i]? with
  | none => simp
  | some c => cases c <;> simp [Commit.enqueued]

/-- A call's step changes what its own call has enqueued. -/
theorem enqueued_set {c c' : Commit} (hget : s.commits[i]? = some c)
    (hcommits : s'.commits = s.commits.set i c') (j : Nat) :
    s'.enqueued j = if i = j then c'.enqueued else s.enqueued j := by
  have hlt := (List.getElem?_eq_some_iff.mp hget).1
  unfold State.enqueued
  rw [hcommits, List.getElem?_set]
  split <;> rfl

theorem enqueued_append (s : State W) (i : Nat) :
    State.enqueued { s with commits := s.commits ++ [.test] } i = s.enqueued i := by
  unfold State.enqueued
  rcases Nat.lt_trichotomy i s.commits.length with hlt | rfl | hgt
  · rw [List.getElem?_append_left hlt]
  · simp [Commit.enqueued]
  · simp [List.getElem?_append_right (Nat.le_of_lt hgt), List.getElem?_eq_none (Nat.le_of_lt hgt),
      show ¬ i - s.commits.length = 0 by omega]

theorem count_append_singleton (tasks : List Nat) (i j : Nat) :
    (tasks ++ [i]).count j = tasks.count j + if i = j then 1 else 0 := by
  rw [List.count_append, List.count_singleton]
  simp

theorem WorkerOk.mono {b b' : Bool} (h : WorkerOk b tasks x) (hstop : b = true → b' = true)
    (htasks : tasks ≠ [] → tasks' ≠ []) : WorkerOk b' tasks' x := by
  cases x with
  | take => exact h.imp hstop htasks
  | exited => exact hstop h
  | loopTest | lock | testPred | block | blocked | run => trivial

theorem inside_woken : x.woken.Inside ↔ x.Inside := by
  cases x <;> rfl

theorem run_of_running (h : 0 < x.running i) : x = .run i := by
  cases x with
  | run j =>
    simp only [Worker.running] at h
    split at h
    · rename_i hij
      rw [hij]
    · cases h
  | _ => cases h

theorem running_woken : x.woken.running i = x.running i := by
  cases x <;> rfl

theorem WorkerOk.woken {b : Bool} (h : WorkerOk b tasks x) : WorkerOk b tasks x.woken := by
  cases x <;> exact h

theorem notMem_set {commits : List Commit} (h : .lock ∉ commits) (hc : c ≠ .lock) :
    .lock ∉ commits.set i c := by
  intro hmem
  rcases List.mem_or_eq_of_mem_set hmem with hold | hnew
  · exact h hold
  · exact hc hnew.symm

/-- The worker that completes the exits is the last to leave. -/
theorem drained_moves [DecidableEq W] (hok : LeavesDrained s (.worker w)) (hmove : Moves s w s') : Drained s' := by
  intro hall
  have hlast {x : Worker} (hworkers : s'.workers = Function.update s.workers w x) :
      x = .exited ∧ ∀ v, v ≠ w → s.workers v = .exited := by
    rw [hworkers] at hall
    exact (Function.forall_update_iff s.workers fun _ x => x = .exited).mp hall
  cases hmove with
  | leave hw hstop => exact hok w rfl (.inl ⟨hw, hstop⟩) (hlast rfl).2
  | giveUp hw hempty => exact hok w rfl (.inr ⟨hw, hempty⟩) (hlast rfl).2
  | again | acquire | ready | unready | sleep | finish => cases (hlast rfl).1
  | pop => cases (hlast rfl).1

variable [Fintype W]

theorem stop_of_exited [Nonempty W] (h : Base s) (hall : ∀ w, s.workers w = .exited) :
    s.stop = true := by
  obtain ⟨w⟩ := ‹Nonempty W›
  have hok := h.workers w
  rwa [hall w] at hok

theorem owner_of_exited (h : Base s) (hall : ∀ w, s.workers w = .exited) : s.owner = none := by
  cases hown : s.owner with
  | none => rfl
  | some w =>
    have hin := (h.owned w).mp hown
    simp only [hall w, Worker.Inside] at hin

theorem executes_of_base (h : Base s) (hd : Drained s) : Executes s := by
  refine ⟨fun i => ?_, fun i henq => ?_, fun hret i hget => ?_⟩
  · have hsum := h.account i
    have hle := enqueued_le s i
    omega
  · have hsum := h.account i
    rcases Nat.eq_zero_or_pos (s.tasks.count i) with hzero | hpos
    · rcases Nat.eq_zero_or_pos (total (Worker.running i) s.workers) with hnone | hrun
      · exact .inr (.inr (List.count_pos_iff.mp (by omega)))
      · obtain ⟨w, hw⟩ := exists_of_total_pos hrun
        refine .inr (.inl ⟨w, ?_⟩)
        exact run_of_running hw
    · exact .inl (List.count_pos_iff.mp hpos)
  · have hsum := h.account i
    have hall := h.joined hret
    have hidle : total (Worker.running i) s.workers = 0 :=
      total_eq_zero fun w => by rw [hall w]; rfl
    have henq : s.enqueued i = 1 := by
      rw [State.enqueued, hget]
      rfl
    rw [(hd hall).1, List.count_nil, hidle, henq] at hsum
    omega

theorem base_stop (h : Base s) (hstep : stop s = some s') : Base s' := by
  cases hs : s.stopper <;> simp only [stop, hs] at hstep
  case alive =>
    cases hstep
    exact ⟨h.owned, by simp, fun v => (h.workers v).mono (fun _ => rfl) id, h.account, by simp⟩
  case stored =>
    cases hstep
    refine ⟨h.owned.keep fun v => inside_woken, by simpa [hs] using h.stopped,
      fun v => (h.workers v).woken, fun i => ?_, by simp⟩
    have hsame : total (Worker.running i) (fun v => (s.workers v).woken) =
        total (Worker.running i) s.workers :=
      Finset.sum_congr rfl fun v _ => running_woken
    rw [hsame]
    exact h.account i
  case notified =>
    simp only [Option.ite_none_right_eq_some, Option.some.injEq] at hstep
    obtain ⟨hall, rfl⟩ := hstep
    exact ⟨h.owned, by simpa [hs] using h.stopped, h.workers, h.account, fun _ => hall⟩
  case returned => cases hstep

/-- A task in the queue, or on its way there, that no worker will take. -/
theorem exists_left (h : Base s) (hleft : ¬ (s.tasks = [] ∧ .lock ∉ s.commits)) :
    ∃ i c, s.commits[i]? = some c ∧ (c = .lock ∨ c = .notify ∨ c = .returned) ∧
      s.executed.count i = 0 := by
  by_cases hlock : .lock ∈ s.commits
  · obtain ⟨i, hget⟩ := List.mem_iff_getElem?.mp hlock
    have hsum := h.account i
    have henq : s.enqueued i = 0 := by
      rw [State.enqueued, hget]
      rfl
    exact ⟨i, .lock, hget, .inl rfl, by omega⟩
  · obtain ⟨i, hi⟩ := List.exists_mem_of_ne_nil _ fun htasks => hleft ⟨htasks, hlock⟩
    have hsum := h.account i
    have hpos := List.count_pos_iff.mpr hi
    have hle := enqueued_le s i
    have henq : s.enqueued i = 1 := by omega
    cases hget : s.commits[i]? with
    | none => simp [State.enqueued, hget] at henq
    | some c =>
      refine ⟨i, c, hget, ?_, by omega⟩
      rw [State.enqueued, hget] at henq
      cases c with
      | notify | returned => simp
      | test | refused | lock => cases henq

/-- A call goes on from `c` to `c'`, its task at the end of the queue where it
has just put it there. -/
theorem base_commits (h : Base s) {c c' : Commit} (hget : s.commits[i]? = some c)
    (htasks : s.tasks ≠ [] → tasks ≠ [])
    (hcount : ∀ j, tasks.count j + (if i = j then c.enqueued else 0) =
      s.tasks.count j + if i = j then c'.enqueued else 0) :
    Base { s with tasks, commits := s.commits.set i c' } := by
  refine ⟨h.owned, h.stopped, fun v => (h.workers v).mono id htasks, fun j => ?_, h.joined⟩
  have hsum := h.account j
  have hnew := hcount j
  rw [enqueued_set hget rfl j]
  by_cases hij : i = j
  · subst hij
    have hold : s.enqueued i = c.enqueued := by
      rw [State.enqueued, hget]
      rfl
    rw [if_pos rfl, if_pos rfl] at hnew
    rw [if_pos rfl]
    simp only
    omega
  · rw [if_neg hij, if_neg hij] at hnew
    rw [if_neg hij]
    simp only
    omega

variable [DecidableEq W]

/-- One worker moves to `x`, and what it does to the tasks balances. -/
theorem base_update (h : Base s) (hw : s.workers w ≠ .exited)
    (hworkers : s'.workers = Function.update s.workers w x) (hstop : s'.stop = s.stop)
    (hstopper : s'.stopper = s.stopper) (hcommits : s'.commits = s.commits)
    (howned : Owned s'.owner fun v => (Function.update s.workers w x v).Inside)
    (hx : WorkerOk s.stop s'.tasks x)
    (hothers : ∀ v, v ≠ w → WorkerOk s.stop s'.tasks (s.workers v))
    (haccount : ∀ i, s'.tasks.count i + x.running i + s'.executed.count i =
      s.tasks.count i + (s.workers w).running i + s.executed.count i) : Base s' := by
  refine ⟨by rw [hworkers]; exact howned, by rw [hstopper, hstop]; exact h.stopped, ?_, fun i => ?_,
    fun hret => ?_⟩
  · rw [hworkers, hstop]
    exact (Function.forall_update_iff s.workers fun _ x => WorkerOk s.stop s'.tasks x).mpr ⟨hx, hothers⟩
  · have hsum := h.account i
    have hmove := total_update (Worker.running i) s.workers w x
    have hbal := haccount i
    have henq : s'.enqueued i = s.enqueued i := by rw [State.enqueued, hcommits, State.enqueued]
    rw [hworkers, henq]
    omega
  · rw [hstopper] at hret
    exact absurd (h.joined hret w) hw

theorem base_moves (h : Base s) (hmove : Moves s w s') : Base s' := by
  have hothers := fun v (_ : v ≠ w) => h.workers v
  cases hmove with
  | leave hw hstop =>
    refine base_update h (by simp [hw]) rfl rfl rfl rfl (h.owned.keep_update Worker.Inside ?_) hstop hothers ?_
    · simp [hw, Worker.Inside]
    · simp [hw, Worker.running, State.setWorker]
  | again hw _ =>
    refine base_update h (by simp [hw]) rfl rfl rfl rfl (h.owned.keep_update Worker.Inside ?_) trivial hothers ?_
    · simp [hw, Worker.Inside]
    · simp [hw, Worker.running, State.setWorker]
  | acquire hw hfree =>
    have hown := h.owned
    rw [hfree] at hown
    refine base_update h ?_ rfl rfl rfl rfl (hown.acquire_update Worker.Inside trivial) trivial hothers ?_
    · rcases hw with hw | hw <;> simp [hw]
    · rcases hw with hw | hw <;> simp [hw, Worker.running, State.setWorker]
  | ready hw hpred =>
    refine base_update h (by simp [hw]) rfl rfl rfl rfl (h.owned.keep_update Worker.Inside ?_) hpred hothers ?_
    · simp [hw, Worker.Inside]
    · simp [hw, Worker.running, State.setWorker]
  | unready hw _ _ =>
    refine base_update h (by simp [hw]) rfl rfl rfl rfl (h.owned.keep_update Worker.Inside ?_) trivial hothers ?_
    · simp [hw, Worker.Inside]
    · simp [hw, Worker.running, State.setWorker]
  | sleep hw =>
    have hin : (s.workers w).Inside := by rw [hw]; trivial
    refine base_update h (by simp [hw]) rfl rfl rfl rfl (h.owned.release_update Worker.Inside hin ?_) trivial
      hothers ?_
    · exact id
    · simp [hw, Worker.running, State.setWorker]
  | giveUp hw hempty =>
    have hin : (s.workers w).Inside := by rw [hw]; trivial
    have hstop : s.stop = true := by
      have hok := h.workers w
      rw [hw] at hok
      exact hok.resolve_right fun hne => hne hempty
    refine base_update h (by simp [hw]) rfl rfl rfl rfl (h.owned.release_update Worker.Inside hin ?_) hstop
      hothers ?_
    · exact id
    · simp [hw, Worker.running, State.setWorker]
  | pop i tasks hw htasks =>
    have hin : (s.workers w).Inside := by rw [hw]; trivial
    refine base_update h (by simp [hw]) rfl rfl rfl rfl (h.owned.release_update Worker.Inside hin ?_) trivial
      (fun v hv => ?_) fun j => ?_
    · exact id
    · -- no other worker is at the queue
      have hok := h.workers v
      cases hx : s.workers v with
      | take => exact absurd (h.owned.unique (by simp only [hx]; trivial) hin) hv
      | exited => rw [hx] at hok; exact hok
      | loopTest | lock | testPred | block | blocked | run => trivial
    · simp only [hw, htasks, Worker.running, List.count_cons, beq_iff_eq]
      rfl
  | finish i hw =>
    refine base_update h (by simp [hw]) rfl rfl rfl rfl (h.owned.keep_update Worker.Inside ?_) trivial hothers
      fun j => ?_
    · simp [hw, Worker.Inside]
    · simp only [hw, Worker.running, count_append_singleton, State.setWorker]
      omega

theorem base_wake (h : Base s) (hw : s.workers w = .blocked false) :
    Base (s.setWorker w (.blocked true)) := by
  refine base_update h (by simp [hw]) rfl rfl rfl rfl (h.owned.keep_update Worker.Inside ?_) trivial
    (fun v _ => h.workers v) fun i => ?_
  · simp [hw, Worker.Inside]
  · simp [hw, Worker.running, State.setWorker]

theorem base_notifyOne (h : Base s) (hstep : notifyOne s woken = some s') :
    Base s' ∧ s'.commits = s.commits ∧ s'.tasks = s.tasks ∧ s'.stop = s.stop := by
  cases woken with
  | none =>
    simp only [notifyOne, Option.ite_none_right_eq_some, Option.some.injEq] at hstep
    obtain ⟨-, rfl⟩ := hstep
    exact ⟨h, rfl, rfl, rfl⟩
  | some w =>
    simp only [notifyOne, Option.ite_none_right_eq_some, Option.some.injEq] at hstep
    obtain ⟨hw, rfl⟩ := hstep
    exact ⟨base_wake h hw, rfl, rfl, rfl⟩

theorem base_commit (h : Base s) (hstep : commit s i woken = some s') : Base s' := by
  unfold commit at hstep
  split at hstep
  · rename_i hget
    cases hstep
    refine base_commits h hget id fun j => ?_
    split
    · cases s.stop <;> rfl
    · rfl
  · rename_i hget
    simp only [Option.ite_none_right_eq_some, Option.some.injEq] at hstep
    obtain ⟨-, rfl⟩ := hstep
    refine base_commits h hget (fun _ => by simp) fun j => ?_
    rw [count_append_singleton]
    split <;> rfl
  · rename_i hget
    obtain ⟨t, ht, rfl⟩ := Option.map_eq_some_iff.mp hstep
    obtain ⟨hbase, hcommits, -, -⟩ := base_notifyOne h ht
    rw [← hcommits] at hget
    exact base_commits hbase hget id fun j => by split <;> rfl
  · cases hstep
  · cases hstep
  · cases hstep

theorem base_step (h : Base s) (hstep : step s a = some s') : Base s' := by
  cases a with
  | commit =>
    cases hstep
    refine ⟨h.owned, h.stopped, h.workers, fun i => ?_, h.joined⟩
    rw [enqueued_append]
    exact h.account i
  | committer i woken => exact base_commit h hstep
  | worker w => exact base_moves h (start_moves hstep)
  | wake w =>
    simp only [step, Option.ite_none_right_eq_some, Option.some.injEq] at hstep
    obtain ⟨hw, rfl⟩ := hstep
    exact base_wake h hw
  | stop => exact base_stop h hstep

-- ---------------------------------------------------------------------------
-- After the last worker
-- ---------------------------------------------------------------------------

theorem drained_commit [Nonempty W] (h : Base s) (hd : Drained s)
    (hstep : commit s i woken = some s') : Drained s' := by
  unfold commit at hstep
  split at hstep
  · cases hstep
    intro hall
    obtain ⟨htasks, hlock⟩ := hd hall
    refine ⟨htasks, notMem_set hlock ?_⟩
    simp [stop_of_exited h hall]
  · rename_i hget
    simp only [Option.ite_none_right_eq_some, Option.some.injEq] at hstep
    obtain ⟨-, rfl⟩ := hstep
    intro hall
    exact absurd (List.mem_of_getElem? hget) (hd hall).2
  · obtain ⟨t, ht, rfl⟩ := Option.map_eq_some_iff.mp hstep
    intro hall
    cases woken with
    | none =>
      simp only [notifyOne, Option.ite_none_right_eq_some, Option.some.injEq] at ht
      obtain ⟨-, rfl⟩ := ht
      obtain ⟨htasks, hlock⟩ := hd hall
      exact ⟨htasks, notMem_set hlock (by simp)⟩
    | some w =>
      simp only [notifyOne, Option.ite_none_right_eq_some, Option.some.injEq] at ht
      obtain ⟨-, rfl⟩ := ht
      have hw := hall w
      simp [State.setWorker] at hw
  · cases hstep
  · cases hstep
  · cases hstep

theorem drained_step [Nonempty W] (h : Base s) (hd : Drained s) (hok : LeavesDrained s a)
    (hstep : step s a = some s') : Drained s' := by
  cases a with
  | commit =>
    cases hstep
    intro hall
    obtain ⟨htasks, hlock⟩ := hd hall
    exact ⟨htasks, by simpa using hlock⟩
  | committer i woken => exact drained_commit h hd hstep
  | worker w => exact drained_moves hok (start_moves hstep)
  | wake w =>
    simp only [step, Option.ite_none_right_eq_some, Option.some.injEq] at hstep
    obtain ⟨-, rfl⟩ := hstep
    intro hall
    have hw := hall w
    simp [State.setWorker] at hw
  | stop =>
    cases hs : s.stopper <;> simp only [step, stop, hs] at hstep
    case alive =>
      cases hstep
      exact hd
    case stored =>
      cases hstep
      intro hall
      refine hd fun v => ?_
      have hv := hall v
      cases hx : s.workers v <;> simp_all [Worker.woken]
    case notified =>
      simp only [Option.ite_none_right_eq_some, Option.some.injEq] at hstep
      obtain ⟨-, rfl⟩ := hstep
      exact hd
    case returned => cases hstep


-- ---------------------------------------------------------------------------
-- What is left over
-- ---------------------------------------------------------------------------

/-- With the workers gone, a call that has passed its test comes to its end. -/
theorem exec_commit (L : Lts (State W) (Label W)) (hL : L.step = step)
    (hall : ∀ w, s.workers w = .exited) (hfree : s.owner = none) (hget : s.commits[i]? = some c)
    (hc : c = .lock ∨ c = .notify ∨ c = .returned) :
    ∃ as t, L.exec s as = some t ∧ t.commits[i]? = some .returned ∧ t.stopper = s.stopper ∧
      t.executed = s.executed ∧ ∀ w, t.workers w = .exited := by
  have hlt := (List.getElem?_eq_some_iff.mp hget).1
  have hasleep : ∀ w, s.workers w ≠ .blocked false := fun w => by simp [hall w]
  rcases hc with rfl | rfl | rfl
  · refine ⟨[.committer i none, .committer i none],
      { s with tasks := s.tasks ++ [i], commits := (s.commits.set i .notify).set i .returned },
      ?_, ?_⟩
    · simp only [Lts.exec, hL, step, commit, hget, if_pos hfree, Option.bind_some,
        List.getElem?_set_self hlt, notifyOne, if_pos hasleep, Option.map_some]
    · refine ⟨?_, rfl, rfl, hall⟩
      simp [hlt]
  · refine ⟨[.committer i none], { s with commits := s.commits.set i .returned }, ?_, ?_⟩
    · simp only [Lts.exec, hL, step, commit, hget, notifyOne, if_pos hasleep, Option.map_some,
        Option.bind_some]
    · exact ⟨by simp [hlt], rfl, rfl, hall⟩
  · exact ⟨[], s, rfl, hget, rfl, rfl, hall⟩

/-- With the workers gone, `stop` comes to its end. -/
theorem exec_stop (L : Lts (State W) (Label W)) (hL : L.step = step)
    (hall : ∀ w, s.workers w = .exited) (hs : s.stopper ≠ .alive) :
    ∃ as t, L.exec s as = some t ∧ t.stopper = .returned ∧ t.commits = s.commits ∧
      t.executed = s.executed := by
  cases hstopper : s.stopper with
  | alive => exact absurd hstopper hs
  | stored =>
    have hwoken : ∀ w, (s.workers w).woken = .exited := fun w => by rw [hall w]; rfl
    refine ⟨[.stop, .stop],
      { s with workers := fun w => (s.workers w).woken, stopper := .returned }, ?_, ?_⟩
    · simp only [Lts.exec, hL, step, stop, hstopper, Option.bind_some, if_pos hwoken]
    · exact ⟨rfl, rfl, rfl⟩
  | notified =>
    refine ⟨[.stop], { s with stopper := .returned }, ?_, ?_⟩
    · simp only [Lts.exec, hL, step, stop, hstopper, if_pos hall, Option.bind_some]
    · exact ⟨rfl, rfl, rfl⟩
  | returned => exact ⟨[], s, rfl, hstopper, rfl, rfl⟩

/-- After the last worker has left something over, `stop` and the call it
belongs to return without it. -/
theorem exec_not_executes (L : Lts (State W) (Label W)) (hL : L.step = step) (h : Base s)
    (hall : ∀ w, s.workers w = .exited) (hs : s.stopper ≠ .alive)
    (hleft : ¬ (s.tasks = [] ∧ .lock ∉ s.commits)) :
    ∃ as t, L.exec s as = some t ∧ ¬ Executes t := by
  obtain ⟨i, c, hget, hc, hcount⟩ := exists_left h hleft
  obtain ⟨as, t, hrun, hret, hstopper, hexec, hall'⟩ :=
    exec_commit L hL hall (owner_of_exited h hall) hget hc
  obtain ⟨bs, u, hrun', hdone, hcommits, hexec'⟩ := exec_stop L hL hall' (by rwa [hstopper])
  refine ⟨as ++ bs, u, exec_append hrun hrun', fun hu => ?_⟩
  have hone := hu.done hdone i (by rw [hcommits, hret])
  rw [hexec', hexec, hcount] at hone
  cases hone

theorem not_executes_of_leaves (L : Lts (State W) (Label W)) (hL : L.step = step) [Nonempty W]
    (h : Base s) (hno : ¬ LeavesDrained s a) (hstep : step s a = some s') :
    ∃ as t, L.exec s' as = some t ∧ ¬ Executes t := by
  have hbase := base_step h hstep
  simp only [LeavesDrained, not_forall] at hno
  obtain ⟨w, rfl, hleaves, hothers, hleft⟩ := hno
  have hout : (∀ v, s'.workers v = .exited) ∧ s'.tasks = s.tasks ∧ s'.commits = s.commits := by
    have hall : ∀ v, Function.update s.workers w .exited v = .exited :=
      (Function.forall_update_iff s.workers fun _ x => x = .exited).mpr ⟨rfl, hothers⟩
    rcases hleaves with ⟨hw, hstop⟩ | ⟨hw, htasks⟩
    · simp only [step, start, hw, if_pos hstop, Option.some.injEq] at hstep
      subst hstep
      exact ⟨hall, rfl, rfl⟩
    · simp only [step, start, hw, htasks, Option.some.injEq] at hstep
      subst hstep
      exact ⟨hall, rfl, rfl⟩
  obtain ⟨hall, htasks, hcommits⟩ := hout
  refine exec_not_executes L hL hbase hall ?_ (by rwa [htasks, hcommits])
  exact hbase.stopped.mp (stop_of_exited hbase hall)

end

theorem inv_of_reachable (h : (system num).Reachable LeavesDrained s) : Base s ∧ Drained s := by
  refine h.invariant (P := fun s => Base s ∧ Drained s) ⟨?_, fun _ => ⟨rfl, nofun⟩⟩
    fun _ _ _ hs hok hstep => ⟨base_step hs.1 hstep, drained_step hs.1 hs.2 hok hstep⟩
  refine ⟨fun w => by simp [system, Worker.Inside], by simp [system], fun w => trivial,
    fun i => ?_, nofun⟩
  have hidle : total (Worker.running i) (system num).init.workers = 0 :=
    total_eq_zero fun w => rfl
  rw [hidle]
  rfl

end DdsAuto.Concurrent.ThreadPool
