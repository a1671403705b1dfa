import DdsAuto.LogicSystem.Dispatch
import DdsAuto.Lib.Mutex

/-!
# `LogicSystem` dispatches every message once and loses no wakeup

Three invariants of every run, each on top of the one before: who holds the
mutex (`LockInv`), what has become of the posted messages (`QueueInv`), and who
will wake a worker that waits with messages queued (`WakeInv`).
-/

namespace DdsAuto.LogicSystem

open Lts Mutex

def Worker.holds : Worker → Bool
  | .lock | .blocked _ | .relock | .exited => false
  | _ => true

def Poster.holds : Poster → Bool
  | .push _ | .testSize | .unlock | .leave => true
  | _ => false

def State.Holds (s : State) : Owner → Prop
  | .worker => s.worker.holds = true
  | .poster i => (s.posters i).holds = true

def LockInv (s : State) : Prop := Owned s.mutex s.Holds

/-- What the worker does with one message from `front()` to `pop()`. -/
def cycle (registered : Int → Bool) (msg : LogicNode) : List Act :=
  if registered msg.recvnode.msgId then [.take msg, .call msg, .pop msg] else [.take msg, .pop msg]

/-- The part of the cycle that is done where the worker is. -/
def Worker.begun (registered : Int → Bool) : Worker → List Act
  | .find _ msg | .call _ msg => [.take msg]
  | .pop _ msg => if registered msg.recvnode.msgId then [.take msg, .call msg] else [.take msg]
  | _ => []

/-- What the worker knows of the queue and of `_b_stop` where it is. -/
def Worker.Knows (registered : Int → Bool) (q : List LogicNode) (bStop : Bool) : Worker → Prop
  | .testStop | .wait | .leave => q = []
  | .ifStop => q ≠ [] ∨ bStop = true
  | .front _ => q ≠ []
  | .find _ msg | .pop _ msg => q.head? = some msg
  | .call _ msg => q.head? = some msg ∧ registered msg.recvnode.msgId = true
  | _ => True

-- the equations the proofs below share
attribute [local grind =] Worker.holds Poster.holds Worker.begun Worker.Knows

structure QueueInv (registered : Int → Bool) (s : State) : Prop where
  posted : s.popped ++ s.msgQue = s.posted
  log : s.log = s.popped.flatMap (cycle registered) ++ s.worker.begun registered
  knows : s.worker.Knows registered s.msgQue s.bStop

/-- A thread that will call `notify_one` whatever the others do. -/
def AboutToNotify (s : State) (i : Nat) : Prop :=
  s.posters i = .notify ∨ s.posters i = .unlock ∨
    s.posters i = .testSize ∧ s.msgQue.length = 1

def WakeInv (s : State) : Prop :=
  s.worker = .blocked false → s.msgQue ≠ [] → ∃ i, AboutToNotify s i

-- ---------------------------------------------------------------------------
-- What a step can do
-- ---------------------------------------------------------------------------

/-- The worker's steps: it takes or releases the mutex, tests something, or
works on the message at the front. -/
inductive WorkerMove (registered : Int → Bool) (s : State) : State → Prop
  | acquire : s.mutex = none → s.worker = .lock ∨ s.worker = .relock →
      WorkerMove registered s ({ s with mutex := some .worker }.setWorker .testEmpty)
  | release (w : Worker) : s.worker.holds = true → w.holds = false →
      s.worker.begun registered = [] → w.begun registered = [] →
      (∀ q b, w.Knows registered q b) → (w = .blocked false → s.worker = .wait) →
      WorkerMove registered s ({ s with mutex := none }.setWorker w)
  | test (w : Worker) : s.worker.holds = true → w.holds = true →
      w.begun registered = s.worker.begun registered →
      (s.worker.Knows registered s.msgQue s.bStop → w.Knows registered s.msgQue s.bStop) →
      (w = .wait → s.bStop = false) → WorkerMove registered s (s.setWorker w)
  | take (drain : Bool) (msg : LogicNode) : s.worker = .front drain → s.msgQue.head? = some msg →
      WorkerMove registered s ((s.record (.take msg)).setWorker (.find drain msg))
  | call (drain : Bool) (msg : LogicNode) : s.worker = .call drain msg →
      WorkerMove registered s ((s.record (.call msg)).setWorker (.pop drain msg))
  | pop (drain : Bool) (msg head : LogicNode) (rest : List LogicNode) :
      s.worker = .pop drain msg → s.msgQue = head :: rest →
      WorkerMove registered s
        { s with
          msgQue := rest
          popped := s.popped ++ [head]
          log := s.log ++ [.pop head]
          worker := if drain then .testDrain else .unlock }

section
variable {registered : Int → Bool} {s s' : State}

theorem dealMsg_move (h : dealMsg registered s = some s') : WorkerMove registered s s' := by
  cases hw : s.worker with
  | lock | relock =>
    simp only [dealMsg, hw, Option.ite_none_right_eq_some, Option.some.injEq] at h
    obtain ⟨hfree, rfl⟩ := h
    exact .acquire hfree (by simp [hw])
  | wait | unlock | leave =>
    simp only [dealMsg, hw, Option.some.injEq] at h
    subst h
    exact .release _ (by simp [hw, Worker.holds]) rfl (by simp [hw, Worker.begun]) rfl
      (fun _ _ => trivial) (by simp [hw])
  | testEmpty =>
    simp only [dealMsg, hw, Option.some.injEq] at h
    subst h
    refine .test _ (by simp [hw, Worker.holds]) ?_ ?_ ?_ ?_ <;> split <;>
      simp_all [Worker.holds, Worker.begun, Worker.Knows]
  | testStop | ifStop | testDrain | find =>
    simp only [dealMsg, hw, Option.some.injEq] at h
    subst h
    refine .test _ (by simp [hw, Worker.holds]) ?_ ?_ ?_ ?_ <;> split <;>
      simp_all [Worker.holds, Worker.begun, Worker.Knows]
  | front drain =>
    simp only [dealMsg, hw, Option.map_eq_some_iff] at h
    obtain ⟨msg, hq, rfl⟩ := h
    exact .take drain msg hw hq
  | call drain msg =>
    simp only [dealMsg, hw, Option.some.injEq] at h
    subst h
    exact .call drain msg hw
  | pop drain msg =>
    simp only [dealMsg, hw, State.pop] at h
    cases hq : s.msgQue with
    | nil => simp [hq] at h
    | cons head rest =>
      simp only [hq, Option.map_some, Option.some.injEq] at h
      subst h
      exact .pop drain msg head rest hw hq
  | blocked | exited => simp [dealMsg, hw] at h

-- ---------------------------------------------------------------------------
-- The mutex
-- ---------------------------------------------------------------------------

theorem holds_worker_only (hp : s'.posters = s.posters) (u : Owner) (hu : u ≠ .worker) :
    s'.Holds u ↔ s.Holds u := by
  cases u with
  | worker => exact absurd rfl hu
  | poster j => simp [State.Holds, hp]

theorem holds_poster_only (hw : s'.worker.holds = s.worker.holds)
    (hp : ∀ j, j ≠ i → s'.posters j = s.posters j) (u : Owner) (hu : u ≠ .poster i) :
    s'.Holds u ↔ s.Holds u := by
  cases u with
  | worker => simp [State.Holds, hw]
  | poster j => simp [State.Holds, hp j fun h => hu (by rw [h])]

theorem lockInv_move (hl : LockInv s) (h : WorkerMove registered s s') : LockInv s' := by
  have hother (hp : s'.posters = s.posters) := holds_worker_only hp
  cases h with
  | acquire hfree =>
    unfold LockInv at hl
    rw [hfree] at hl
    exact hl.acquire rfl (hother rfl)
  | release w hin hout =>
    exact hl.release (t := .worker) hin (by simp [State.Holds, State.setWorker, hout]) (hother rfl)
  | test w hin hin' =>
    refine hl.keep fun u => ?_
    by_cases hu : u = .worker
    · subst hu
      simp [State.Holds, State.setWorker, hin, hin']
    · exact hother rfl u hu
  | take drain msg hw | call drain msg hw | pop drain msg _ _ hw =>
    refine hl.keep fun u => ?_
    by_cases hu : u = .worker
    · subst hu
      cases drain <;> simp [State.Holds, State.setWorker, State.record, hw, Worker.holds]
    · exact hother rfl u hu

@[simp] theorem woken_holds (w : Worker) : w.woken.holds = w.holds := by cases w <;> rfl

theorem lockInv_post (hl : LockInv s) (h : postMsgToQue s i = some s') : LockInv s' := by
  have hother (hw : s'.worker.holds = s.worker.holds)
      (hp : ∀ j, j ≠ i → s'.posters j = s.posters j) := holds_poster_only hw hp
  cases hp : s.posters i with
  | idle => simp [postMsgToQue, hp] at h
  | lock msg =>
    simp only [postMsgToQue, hp, Option.ite_none_right_eq_some, Option.some.injEq] at h
    obtain ⟨hfree, rfl⟩ := h
    unfold LockInv at hl
    rw [hfree] at hl
    exact hl.acquire (by simp [State.Holds, State.setPoster, Poster.holds])
      (hother rfl fun j hj => by simp [State.setPoster, hj])
  | push msg | testSize =>
    simp only [postMsgToQue, hp, Option.some.injEq] at h
    subst h
    refine hl.keep fun u => ?_
    by_cases hu : u = .poster i
    · subst hu
      by_cases hone : s.msgQue.length = 1 <;>
        simp [State.Holds, State.setPoster, hp, Poster.holds, hone]
    · exact hother rfl (fun j hj => by simp [State.setPoster, hj]) u hu
  | unlock | leave =>
    simp only [postMsgToQue, hp, Option.some.injEq] at h
    subst h
    exact hl.release (t := .poster i) (by simp [State.Holds, hp, Poster.holds])
      (by simp [State.Holds, State.setPoster, Poster.holds])
      (hother rfl fun j hj => by simp [State.setPoster, hj])
  | notify =>
    simp only [postMsgToQue, hp, Option.some.injEq] at h
    subst h
    refine hl.keep fun u => ?_
    by_cases hu : u = .poster i
    · subst hu
      simp [State.Holds, State.setPoster, hp, Poster.holds]
    · exact hother (woken_holds _)
        (fun j hj => by simp [State.setPoster, State.notifyOne, State.setWorker, hj]) u hu

theorem lockInv_keep (hl : LockInv s) (hm : s'.mutex = s.mutex)
    (hw : s'.worker.holds = s.worker.holds) (hp : ∀ j, (s'.posters j).holds = (s.posters j).holds) :
    LockInv s' := by
  unfold LockInv
  rw [hm]
  refine hl.keep fun u => ?_
  cases u with
  | worker => simp [State.Holds, hw]
  | poster j => simp [State.Holds, hp j]

theorem lockInv_step (hl : LockInv s) (h : step registered s a = some s') : LockInv s' := by
  cases a with
  | call i msg =>
    simp only [step, Option.ite_none_right_eq_some, Option.some.injEq] at h
    obtain ⟨hidle, rfl⟩ := h
    refine lockInv_keep hl rfl rfl fun j => ?_
    by_cases hj : j = i <;> simp [State.setPoster, hj, hidle, Poster.holds]
  | poster i => exact lockInv_post hl h
  | worker => exact lockInv_move hl (dealMsg_move h)
  | wake =>
    cases hw : s.worker <;> simp only [step, hw] at h <;> cases h
    exact lockInv_keep hl rfl (by rw [hw]; rfl) fun _ => rfl
  | destroy =>
    cases hd : s.dtor <;> simp only [step, destroy, hd] at h
    case notified =>
      simp only [Option.ite_none_right_eq_some, Option.some.injEq] at h
      obtain ⟨-, rfl⟩ := h
      exact lockInv_keep hl rfl rfl fun _ => rfl
    case alive =>
      cases h
      exact lockInv_keep hl rfl rfl fun _ => rfl
    case stored =>
      cases h
      exact lockInv_keep hl rfl (woken_holds _) fun _ => rfl
    case joined => cases h

-- ---------------------------------------------------------------------------
-- The messages
-- ---------------------------------------------------------------------------

theorem queueInv_move (hq : QueueInv registered s) (h : WorkerMove registered s s') :
    QueueInv registered s' := by
  obtain ⟨hposted, hlog, hknows⟩ := hq
  cases h with
  | acquire _ hw =>
    have hbegun : s.worker.begun registered = [] := by
      rcases hw with hw | hw <;> simp [hw, Worker.begun]
    rw [hbegun] at hlog
    exact ⟨hposted, hlog, trivial⟩
  | release w _ _ hbegun hbegun' hany =>
    rw [hbegun] at hlog
    exact ⟨hposted, by simpa [State.setWorker, hbegun'] using hlog, hany _ _⟩
  | test w _ _ hbegun hnext _ =>
    exact ⟨hposted, by simpa [State.setWorker, hbegun] using hlog, hnext hknows⟩
  | take drain msg hw hhead =>
    rw [hw] at hlog
    exact ⟨hposted, by simpa [State.setWorker, State.record, Worker.begun] using hlog, hhead⟩
  | call drain msg hw =>
    rw [hw] at hlog hknows
    refine ⟨hposted, ?_, hknows.1⟩
    simp [State.setWorker, State.record, Worker.begun, hknows.2, hlog]
  | pop drain msg head rest hw hcons =>
    rw [hw] at hlog hknows
    obtain rfl : head = msg := by simpa [Worker.Knows, hcons] using hknows
    refine ⟨?_, ?_, by cases drain <;> trivial⟩
    · rw [← hposted, hcons]
      simp
    · have hnone : (if drain then Worker.testDrain else .unlock).begun registered = [] := by
        cases drain <;> rfl
      simp only [hnone, List.append_nil, List.flatMap_append, List.flatMap_singleton, hlog,
        List.append_assoc]
      congr 1
      simp only [Worker.begun, cycle]
      split <;> rfl

/-- A worker outside the critical section knows nothing of the queue. -/
theorem knows_outside {w : Worker} (h : w.holds = false) : w.Knows registered q b := by
  cases w <;> simp_all [Worker.holds, Worker.Knows]

theorem knows_stop {w : Worker} (h : w.Knows registered q b) : w.Knows registered q true := by
  cases w <;> simp_all [Worker.Knows]

@[simp] theorem woken_begun (w : Worker) : w.woken.begun registered = w.begun registered := by
  cases w <;> rfl

theorem woken_knows {w : Worker} (h : w.Knows registered q b) : w.woken.Knows registered q b := by
  cases w <;> exact h

theorem woken_not_blocked (w : Worker) : w.woken ≠ .blocked false := by
  cases w <;> simp [Worker.woken]

theorem queueInv_notifyOne (hq : QueueInv registered s) : QueueInv registered s.notifyOne :=
  ⟨hq.posted, by simpa [State.notifyOne, State.setWorker] using hq.log, woken_knows hq.knows⟩

/-- While a thread is inside the critical section the worker is not. -/
theorem worker_outside (hl : LockInv s) (hp : (s.posters i).holds = true) :
    s.worker.holds = false := by
  by_cases hw : s.worker.holds = true
  · have := hl.unique (t := Owner.poster i) (u := Owner.worker) hp hw
    cases this
  · simpa using hw

theorem queueInv_post (hl : LockInv s) (hq : QueueInv registered s)
    (h : postMsgToQue s i = some s') : QueueInv registered s' := by
  cases hp : s.posters i with
  | idle => simp [postMsgToQue, hp] at h
  | lock msg =>
    simp only [postMsgToQue, hp, Option.ite_none_right_eq_some, Option.some.injEq] at h
    obtain ⟨-, rfl⟩ := h
    exact ⟨hq.posted, hq.log, hq.knows⟩
  | push msg =>
    simp only [postMsgToQue, hp, Option.some.injEq] at h
    subst h
    have hout := worker_outside hl (i := i) (by rw [hp]; rfl)
    refine ⟨?_, hq.log, knows_outside hout⟩
    show s.popped ++ (s.msgQue ++ [msg]) = s.posted ++ [msg]
    rw [← List.append_assoc, hq.posted]
  | notify =>
    simp only [postMsgToQue, hp, Option.some.injEq] at h
    subst h
    have hn := queueInv_notifyOne hq
    exact ⟨hn.posted, hn.log, hn.knows⟩
  | testSize | unlock | leave =>
    simp only [postMsgToQue, hp, Option.some.injEq] at h
    subst h
    exact ⟨hq.posted, hq.log, hq.knows⟩

theorem queueInv_step (hl : LockInv s) (hq : QueueInv registered s)
    (h : step registered s a = some s') : QueueInv registered s' := by
  cases a with
  | call i msg =>
    simp only [step, Option.ite_none_right_eq_some, Option.some.injEq] at h
    obtain ⟨-, rfl⟩ := h
    exact ⟨hq.posted, hq.log, hq.knows⟩
  | poster i => exact queueInv_post hl hq h
  | worker => exact queueInv_move hq (dealMsg_move h)
  | wake =>
    cases hw : s.worker <;> simp only [step, hw] at h <;> cases h
    refine ⟨hq.posted, ?_, trivial⟩
    have hlog := hq.log
    rw [hw] at hlog
    exact hlog
  | destroy =>
    cases hd : s.dtor <;> simp only [step, destroy, hd] at h
    case alive =>
      cases h
      exact ⟨hq.posted, hq.log, knows_stop hq.knows⟩
    case stored =>
      cases h
      have hn := queueInv_notifyOne hq
      exact ⟨hn.posted, hn.log, hn.knows⟩
    case notified =>
      simp only [Option.ite_none_right_eq_some, Option.some.injEq] at h
      obtain ⟨-, rfl⟩ := h
      exact ⟨hq.posted, hq.log, hq.knows⟩
    case joined => cases h

-- ---------------------------------------------------------------------------
-- Wakeups
-- ---------------------------------------------------------------------------

theorem wakeInv_move (hq : QueueInv registered s) (h : WorkerMove registered s s') :
    WakeInv s' := by
  intro hblocked hne
  cases h with
  | acquire => cases hblocked
  | release w _ _ _ _ _ hwait =>
    -- the worker blocks on an empty queue
    have hknows := hq.knows
    rw [hwait hblocked] at hknows
    exact absurd hknows hne
  | test w _ hin =>
    have hblocked : w = .blocked false := hblocked
    rw [hblocked] at hin
    cases hin
  | take | call => cases hblocked
  | pop drain =>
    have hblocked : (if drain then Worker.testDrain else .unlock) = .blocked false := hblocked
    cases drain <;> cases hblocked

/-- A pending notification survives a step of another thread. -/
theorem aboutToNotify_other (h : AboutToNotify s j) (hp : s'.posters j = s.posters j)
    (hq : s'.msgQue = s.msgQue) : AboutToNotify s' j := by
  unfold AboutToNotify at h ⊢
  rw [hp, hq]
  exact h

theorem wakeInv_post (hl : LockInv s) (hwake : WakeInv s) (h : postMsgToQue s i = some s') :
    WakeInv s' := by
  intro hblocked hne
  have hkeep (hw : s.worker = .blocked false) (hq : s'.msgQue = s.msgQue)
      (hp : ∀ j, j ≠ i → s'.posters j = s.posters j) (hi : ¬ AboutToNotify s i) :
      ∃ j, AboutToNotify s' j := by
    obtain ⟨j, hj⟩ := hwake hw (hq ▸ hne)
    have hji : j ≠ i := fun h => hi (h ▸ hj)
    exact ⟨j, aboutToNotify_other hj (hp j hji) hq⟩
  cases hp : s.posters i with
  | idle => simp [postMsgToQue, hp] at h
  | lock msg =>
    simp only [postMsgToQue, hp, Option.ite_none_right_eq_some, Option.some.injEq] at h
    obtain ⟨-, rfl⟩ := h
    exact hkeep hblocked rfl (fun j hj => by simp [State.setPoster, hj])
      (by simp [AboutToNotify, hp])
  | push msg =>
    simp only [postMsgToQue, hp, Option.some.injEq] at h
    subst h
    by_cases hempty : s.msgQue = []
    · exact ⟨i, .inr (.inr ⟨by simp [State.setPoster], by simp [State.setPoster, hempty]⟩)⟩
    · -- the thread that made the queue non-empty has left the critical section
      obtain ⟨j, hj⟩ := hwake hblocked hempty
      have hji : j ≠ i := by
        rintro rfl
        simp [AboutToNotify, hp] at hj
      have hjp : ({ s with msgQue := s.msgQue ++ [msg], posted := s.posted ++ [msg] }.setPoster i
          .testSize).posters j = s.posters j := by simp [State.setPoster, hji]
      rcases hj with hj | hj | ⟨hj, -⟩
      · exact ⟨j, .inl (hjp.trans hj)⟩
      · exact ⟨j, .inr (.inl (hjp.trans hj))⟩
      · have hsame := hl.unique (t := .poster i) (u := .poster j) (by rw [State.Holds, hp]; rfl)
          (by rw [State.Holds, hj]; rfl)
        cases hsame
        exact absurd rfl hji
  | testSize =>
    simp only [postMsgToQue, hp, Option.some.injEq] at h
    subst h
    by_cases hone : s.msgQue.length = 1
    · exact ⟨i, .inr (.inl (by simp [State.setPoster, hone]))⟩
    · exact hkeep hblocked rfl (fun j hj => by simp [State.setPoster, hj])
        (by simp [AboutToNotify, hp, hone])
  | unlock =>
    simp only [postMsgToQue, hp, Option.some.injEq] at h
    subst h
    exact ⟨i, .inl (by simp [State.setPoster])⟩
  | notify =>
    simp only [postMsgToQue, hp, Option.some.injEq] at h
    subst h
    exact absurd hblocked (woken_not_blocked s.worker)
  | leave =>
    simp only [postMsgToQue, hp, Option.some.injEq] at h
    subst h
    exact hkeep hblocked rfl (fun j hj => by simp [State.setPoster, hj])
      (by simp [AboutToNotify, hp])

theorem wakeInv_step (hl : LockInv s) (hq : QueueInv registered s) (hwake : WakeInv s)
    (h : step registered s a = some s') : WakeInv s' := by
  cases a with
  | call i msg =>
    simp only [step, Option.ite_none_right_eq_some, Option.some.injEq] at h
    obtain ⟨hidle, rfl⟩ := h
    intro hblocked hne
    obtain ⟨j, hj⟩ := hwake hblocked hne
    have hji : j ≠ i := by
      rintro rfl
      simp [AboutToNotify, hidle] at hj
    exact ⟨j, aboutToNotify_other hj (by simp [State.setPoster, hji]) rfl⟩
  | poster i => exact wakeInv_post hl hwake h
  | worker => exact wakeInv_move hq (dealMsg_move h)
  | wake =>
    cases hw : s.worker <;> simp only [step, hw] at h <;> cases h
    intro hblocked
    cases hblocked
  | destroy =>
    cases hd : s.dtor <;> simp only [step, destroy, hd] at h
    case alive =>
      cases h
      exact hwake
    case stored =>
      cases h
      exact fun hblocked => absurd hblocked (woken_not_blocked s.worker)
    case notified =>
      simp only [Option.ite_none_right_eq_some, Option.some.injEq] at h
      obtain ⟨-, rfl⟩ := h
      exact hwake
    case joined => cases h

theorem inv_reachable {ok : State → Label → Prop} (h : (system registered).Reachable ok s) :
    LockInv s ∧ QueueInv registered s ∧ WakeInv s := by
  refine h.invariant (P := fun s => LockInv s ∧ QueueInv registered s ∧ WakeInv s) ?_ ?_
  · refine ⟨fun t => ?_, ⟨rfl, rfl, trivial⟩, nofun⟩
    cases t <;> simp [system, State.start, State.Holds, Worker.holds, Poster.holds]
  · rintro s a s' ⟨hl, hq, hw⟩ - hstep
    exact ⟨lockInv_step hl hstep, queueInv_step hl hq hstep, wakeInv_step hl hq hw hstep⟩

end

-- ---------------------------------------------------------------------------
-- What the queue guarantees
-- ---------------------------------------------------------------------------

def Act.taken : Act → Option LogicNode
  | .take msg => some msg
  | _ => none

/-- Messages are taken in the order of posting, each goes through its whole
cycle once, the worker leaves an empty queue behind, and it does not sleep over
a message that nobody is about to announce. -/
structure Dispatched (registered : Int → Bool) (s : State) : Prop where
  inOrder : s.log.filterMap Act.taken <+: s.posted
  noneLost : s.popped ++ s.msgQue = s.posted
  once : ∃ begun, s.log = s.popped.flatMap (cycle registered) ++ begun ∧
    (begun = [] ∨ ∃ msg rest, s.msgQue = msg :: rest ∧ begun <+: cycle registered msg ∧
      begun ≠ cycle registered msg)
  left : s.worker = .leave → s.msgQue = []
  awake : s.bStop = false → s.worker = .blocked false → s.msgQue ≠ [] → ∃ i, AboutToNotify s i

section
variable {registered : Int → Bool} {s : State}

/-- The unfinished cycle belongs to the message at the front. -/
theorem begun_cases {w : Worker} (h : w.Knows registered q b) :
    w.begun registered = [] ∨ ∃ msg rest, q = msg :: rest ∧
      w.begun registered <+: cycle registered msg ∧
      w.begun registered ≠ cycle registered msg ∧
      (w.begun registered).filterMap Act.taken = [msg] := by
  have hfront (msg : LogicNode) (hq : q.head? = some msg) : ∃ rest, q = msg :: rest := by
    cases q with
    | nil => cases hq
    | cons m rest =>
      cases hq
      exact ⟨rest, rfl⟩
  cases w with
  | find drain msg =>
    obtain ⟨rest, hq⟩ := hfront msg h
    refine .inr ⟨msg, rest, hq, ?_, ?_, rfl⟩ <;> simp only [Worker.begun, cycle] <;> split <;> simp
  | call drain msg =>
    obtain ⟨rest, hq⟩ := hfront msg h.1
    refine .inr ⟨msg, rest, hq, ?_, ?_, rfl⟩ <;> simp only [Worker.begun, cycle] <;> split <;> simp
  | pop drain msg =>
    obtain ⟨rest, hq⟩ := hfront msg h
    refine .inr ⟨msg, rest, hq, ?_, ?_, ?_⟩ <;> simp only [Worker.begun, cycle] <;> split <;>
      simp [Act.taken]
  | _ => exact .inl rfl

theorem taken_cycles (msgs : List LogicNode) :
    (msgs.flatMap (cycle registered)).filterMap Act.taken = msgs := by
  induction msgs with
  | nil => rfl
  | cons msg msgs ih =>
    rw [List.flatMap_cons, List.filterMap_append, ih, cycle]
    split <;> rfl

end

theorem logicSystem_dispatches (registered : Int → Bool) (s : State)
    (h : (system registered).Reachable anyStep s) : Dispatched registered s := by
  obtain ⟨-, ⟨hposted, hlog, hknows⟩, hwake⟩ := inv_reachable h
  refine ⟨?_, hposted, ⟨_, hlog, ?_⟩, ?_, fun _ => hwake⟩
  · rw [hlog, List.filterMap_append, taken_cycles, ← hposted]
    rcases begun_cases hknows with hnone | ⟨msg, rest, hq, -, -, htaken⟩
    · simp [hnone]
    · simp [htaken, hq]
  · rcases begun_cases hknows with hnone | ⟨msg, rest, hq, hpre, hne, -⟩
    · exact .inl hnone
    · exact .inr ⟨msg, rest, hq, hpre, hne⟩
  · intro hw
    rw [hw] at hknows
    exact hknows

/-- The worker sleeps, a thread posts, and has yet to notify. -/
theorem logicSystem_dispatches_asleep :
    ∃ s, (s.worker = .blocked false ∧ s.msgQue ≠ []) ∧ Dispatched (· == 1001) s := by
  obtain ⟨s, hs, hasleep⟩ := reachable_of_exec (system (· == 1001))
    [.worker, .worker, .worker, .worker, .call 3 ⟨0, .zeros 2 1001⟩, .poster 3, .poster 3,
      .poster 3, .poster 3]
    (fun s => decide (s.worker = .blocked false ∧ s.msgQue ≠ [])) (by decide)
  exact ⟨s, of_decide_eq_true hasleep, logicSystem_dispatches _ s hs⟩

end DdsAuto.LogicSystem
