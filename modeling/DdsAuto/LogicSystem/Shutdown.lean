import DdsAuto.LogicSystem.DispatchSound

/-!
# `~LogicSystem` and the worker

The destructor stores `_b_stop` and notifies without the mutex, so both may fall
between the worker's test of `_b_stop` and its blocking. `shutdown_wakes_iff`:
only then is the wakeup lost and the join stuck.
-/

namespace DdsAuto.LogicSystem

open Lts Mutex

/-- The destructor has notified, and the worker waits or is about to, with no
notification left for it. -/
def Stuck (s : State) : Prop :=
  (s.dtor = .notified ∨ s.dtor = .joined) ∧ (s.worker = .wait ∨ s.worker = .blocked false)

instance (s : State) : Decidable (Stuck s) := by unfold Stuck; infer_instance

/-- `notify_one` of the destructor does not fall between the worker's test of
`_b_stop` and its blocking. -/
def NotifyOutsideWindow (s : State) (a : Label) : Prop :=
  a = .destroy → s.dtor = .stored → s.worker ≠ .wait

structure StopInv (s : State) : Prop where
  stored : s.dtor = .alive ∨ s.bStop = true
  notified : s.dtor = .notified ∨ s.dtor = .joined → s.worker ≠ .wait ∧ s.worker ≠ .blocked false

section
variable {registered : Int → Bool} {s s' : State}

theorem stopInv_move (hs : StopInv s) (h : WorkerMove registered s s') : StopInv s' := by
  obtain ⟨hstored, hnotified⟩ := hs
  cases h with
  | acquire => exact ⟨hstored, fun _ => ⟨nofun, nofun⟩⟩
  | release w _ hout _ _ _ hwait =>
    refine ⟨hstored, fun hd => ⟨?_, fun hblocked => (hnotified hd).1 (hwait hblocked)⟩⟩
    rintro rfl
    cases hout
  | test w _ hin _ _ hstop =>
    refine ⟨hstored, fun hd => ⟨fun hw => ?_, ?_⟩⟩
    · -- `_b_stop` is set by now, so the test did not lead to `wait`
      have hd : s.dtor = .notified ∨ s.dtor = .joined := hd
      have hclear := hstop hw
      rcases hstored with halive | hset
      · simp [halive] at hd
      · simp [hset] at hclear
    · rintro rfl
      cases hin
  | take | call => exact ⟨hstored, fun _ => ⟨nofun, nofun⟩⟩
  | pop drain => exact ⟨hstored, fun _ => by cases drain <;> exact ⟨nofun, nofun⟩⟩

theorem woken_wait {w : Worker} (h : w.woken = .wait) : w = .wait := by
  cases w <;> simp_all [Worker.woken]

/-- A notification of a poster can only help. -/
theorem stopInv_notifyOne (hs : StopInv s) : StopInv s.notifyOne :=
  ⟨hs.stored, fun hd => ⟨fun hw => (hs.notified hd).1 (woken_wait hw), woken_not_blocked _⟩⟩

theorem stopInv_post (hs : StopInv s) (h : postMsgToQue s i = some s') : StopInv s' := by
  cases hp : s.posters i with
  | idle => simp [postMsgToQue, hp] at h
  | lock msg =>
    simp only [postMsgToQue, hp, Option.ite_none_right_eq_some, Option.some.injEq] at h
    obtain ⟨-, rfl⟩ := h
    exact ⟨hs.stored, hs.notified⟩
  | notify =>
    simp only [postMsgToQue, hp, Option.some.injEq] at h
    subst h
    have hn := stopInv_notifyOne hs
    exact ⟨hn.stored, hn.notified⟩
  | push | testSize | unlock | leave =>
    simp only [postMsgToQue, hp, Option.some.injEq] at h
    subst h
    exact ⟨hs.stored, hs.notified⟩

theorem stopInv_step (hs : StopInv s) (hok : NotifyOutsideWindow s a)
    (h : step registered s a = some s') : StopInv s' := by
  cases a with
  | call i msg =>
    simp only [step, Option.ite_none_right_eq_some, Option.some.injEq] at h
    obtain ⟨-, rfl⟩ := h
    exact ⟨hs.stored, hs.notified⟩
  | poster i => exact stopInv_post hs h
  | worker => exact stopInv_move hs (dealMsg_move h)
  | wake =>
    cases hw : s.worker <;> simp only [step, hw] at h <;> cases h
    exact ⟨hs.stored, fun _ => by simp [State.setWorker]⟩
  | destroy =>
    cases hd : s.dtor <;> simp only [step, destroy, hd] at h
    case alive =>
      cases h
      exact ⟨.inr rfl, by simp⟩
    case stored =>
      cases h
      have hset : s.bStop = true := by simpa [hd] using hs.stored
      exact ⟨.inr hset, fun _ => ⟨fun hw => hok rfl hd (woken_wait hw), woken_not_blocked _⟩⟩
    case notified =>
      simp only [Option.ite_none_right_eq_some, Option.some.injEq] at h
      obtain ⟨hexited, rfl⟩ := h
      exact ⟨by simpa [hd] using hs.stored, fun _ => by simp [hexited]⟩
    case joined => cases h

end

/-- No run sticks as long as the destructor notifies outside the window, and
notifying inside it sticks at once. -/
theorem shutdown_wakes_iff (registered : Int → Bool) :
    (∀ s, (system registered).Reachable NotifyOutsideWindow s → ¬ Stuck s) ∧
    ∀ s a s', (system registered).Reachable anyStep s → ¬ NotifyOutsideWindow s a →
      (system registered).step s a = some s' → Stuck s' := by
  constructor
  · intro s h
    have hs : StopInv s :=
      h.invariant (P := StopInv) ⟨.inl rfl, by simp [system, State.start]⟩
        fun _ _ _ hs hok hstep => stopInv_step hs hok hstep
    rintro ⟨hd, hw⟩
    obtain ⟨hwait, hblocked⟩ := hs.notified hd
    exact hw.elim hwait hblocked
  · intro s a s' _ hno hstep
    obtain ⟨rfl, hd, hw⟩ : a = .destroy ∧ s.dtor = .stored ∧ s.worker = .wait := by
      simpa [NotifyOutsideWindow] using hno
    simp only [system, step, destroy, hd, Option.some.injEq] at hstep
    subst hstep
    exact ⟨.inl rfl, .inl (by simp [State.notifyOne, State.setWorker, hw, Worker.woken])⟩

theorem shutdown_wakes_iff_hello :
    (∀ s, (system (· == 1001)).Reachable NotifyOutsideWindow s → ¬ Stuck s) ∧
    ∀ s a s', (system (· == 1001)).Reachable anyStep s → ¬ NotifyOutsideWindow s a →
      (system (· == 1001)).step s a = some s' → Stuck s' :=
  shutdown_wakes_iff _

/-- The worker finds the queue empty and `_b_stop` clear; the destructor stores
and notifies; then the worker blocks. -/
theorem shutdown_loses_wakeup :
    ¬ ∀ s, (system (· == 1001)).Reachable anyStep s → ¬ Stuck s := by
  intro h
  obtain ⟨s, hs, hstuck⟩ := reachable_of_exec (system (· == 1001))
    [.worker, .worker, .worker, .destroy, .destroy, .worker] (fun s => decide (Stuck s)) (by decide)
  exact h s hs (of_decide_eq_true hstuck)

end DdsAuto.LogicSystem
