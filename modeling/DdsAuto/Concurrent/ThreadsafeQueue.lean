import DdsAuto.Lib.History
import DdsAuto.Lib.Lts
import DdsAuto.Lib.Mutex
import DdsAuto.Lib.Threads

/-!
# `threadsafe_queue`

Any number of threads call `push` and the overloads of `wait_and_pop` and
`try_pop`; a statement under the mutex is a step. `push` notifies one thread each
time, whatever the queue held before, so while a thread sleeps every queued value
has a notified thread on its way, or its pusher has still to notify, or the
holder of the mutex has still to take a value: `queue_correct`. A value taken by
`try_pop`, or by a thread that has not slept, only leaves a notification over.
-/

namespace DdsAuto.Concurrent.ThreadsafeQueue

open Lts Function Mutex Threads History

/-- `f(T& value)` and `shared_ptr<T> f()`. -/
inductive Overload
  | value
  | shared
  deriving DecidableEq, Repr

inductive Pop
  | waitAndPop (o : Overload)
  | tryPop (o : Overload)
  deriving DecidableEq, Repr

/-- Where a thread is: before the statement named, with what the call has copied.
In `data_cond.wait` it sleeps until it is notified or comes back by itself, and
then takes the mutex before its next test. -/
inductive Point (T : Type)
  | idle
  | lockPush (new_value : T)
  | push (new_value : T)
  | notify
  | lockPop (op : Pop)
  | test (op : Pop)
  | asleep (o : Overload)
  | notified (o : Overload)
  | awake (o : Overload)
  | front (op : Pop)
  | pop (op : Pop) (res : T)
  | unlock
  deriving DecidableEq, Repr

/-- `data_queue` has the front first, `owner` holds `mut`; `history` records each call at the statement
that settles what it does. -/
structure State (τ T : Type) where
  data_queue : List T
  owner : Option τ
  points : τ → Point T
  history : List (Event Pop T)

/-- `notify t woken`: `t` calls `notify_one`, and this is the thread it wakes. -/
inductive Label (τ T : Type)
  | push (t : τ) (new_value : T)
  | pop (t : τ) (op : Pop)
  | run (t : τ)
  | notify (t : τ) (woken : Option τ)
  | spurious (t : τ)
  deriving DecidableEq

/-- The thread is in `data_cond.wait` and nothing has woken it. -/
def Point.Asleep : Point T → Prop
  | .asleep _ => True
  | _ => False

instance (p : Point T) : Decidable p.Asleep := by cases p <;> unfold Point.Asleep <;> infer_instance

variable {τ T : Type} [Fintype τ] [DecidableEq τ]

def State.goto (s : State τ T) (t : τ) (p : Point T) : State τ T :=
  { s with points := update s.points t p }

/-- `t` takes the mutex if it is free. -/
def State.lock (s : State τ T) (t : τ) (p : Point T) : Option (State τ T) :=
  if s.owner = none then some { s.goto t p with owner := some t } else none

/-- A call's next step. `front` of an empty queue has no result. -/
def run (s : State τ T) (t : τ) : Option (State τ T) :=
  match s.points t with
  | .idle | .notify | .asleep _ => none
  | .lockPush new_value => s.lock t (.push new_value)
  | .push new_value =>
    some { s.goto t .notify with
      data_queue := s.data_queue ++ [new_value]
      history := s.history ++ [.pushed new_value] }
  | .lockPop op => s.lock t (.test op)
  | .test op =>
    if s.data_queue.isEmpty then
      match op with
      | .waitAndPop o => some { s.goto t (.asleep o) with owner := none }
      | .tryPop o => some { s.goto t .unlock with history := s.history ++ [.empty (.tryPop o)] }
    else some (s.goto t (.front op))
  | .notified o => s.lock t (.test (.waitAndPop o))
  | .awake o => s.lock t (.test (.waitAndPop o))
  | .front op => s.data_queue.head?.map fun res => s.goto t (.pop op res)
  | .pop op res =>
    some { s.goto t .unlock with
      data_queue := s.data_queue.tail
      history := s.history ++ [.popped op res] }
  | .unlock => some { s.goto t .idle with owner := none }

/-- `notify_one` wakes one of the threads asleep, if there are any. -/
def notifyOne (s : State τ T) (t : τ) (woken : Option τ) : Option (State τ T) :=
  match s.points t with
  | .notify =>
    match woken with
    | none => if ∀ u, ¬ (s.points u).Asleep then some (s.goto t .unlock) else none
    | some u =>
      match s.points u with
      | .asleep o => some ((s.goto u (.notified o)).goto t .unlock)
      | _ => none
  | _ => none

/-- A thread makes a call when it is in none. -/
def call (s : State τ T) (t : τ) (p : Point T) : Option (State τ T) :=
  match s.points t with
  | .idle => some (s.goto t p)
  | _ => none

def spurious (s : State τ T) (t : τ) : Option (State τ T) :=
  match s.points t with
  | .asleep o => some (s.goto t (.awake o))
  | _ => none

def step (s : State τ T) : Label τ T → Option (State τ T)
  | .push t new_value => call s t (.lockPush new_value)
  | .pop t op => call s t (.lockPop op)
  | .run t => run s t
  | .notify t woken => notifyOne s t woken
  | .spurious t => spurious s t

def system (τ T : Type) [Fintype τ] [DecidableEq τ] : Lts (State τ T) (Label τ T) where
  init := ⟨[], none, fun _ => .idle, []⟩
  step := step

/-- Notified and not yet back from `wait`. -/
def Point.notifications : Point T → Nat
  | .notified _ => 1
  | _ => 0

/-- A queued value the thread has in hand: one it has pushed and has not yet
notified of, or one it may still take before it gives the mutex back. -/
def Point.inHand : Point T → Nat
  | .notify | .test _ | .front _ | .pop _ _ => 1
  | _ => 0

/-- Values leave in the order in which they were pushed; `try_pop` finds nothing
only where all of them have left; and while a thread sleeps, the queued values,
but for the one in hand while the mutex is held, have a notified thread each. -/
structure Correct (s : State τ T) : Prop where
  fifo : Fifo s.history s.data_queue
  order : pops s.history ++ s.data_queue = pushes s.history
  failed : ∀ pre op post, s.history = pre ++ .empty op :: post → pops pre = pushes pre
  covered : s.owner = none → (∃ t, (s.points t).Asleep) →
    s.data_queue.length ≤ total Point.notifications s.points
  coveredInside : (∃ t, (s.points t).Asleep) →
    s.data_queue.length ≤ total Point.notifications s.points + total Point.inHand s.points

-- ---------------------------------------------------------------------------
-- The invariant
-- ---------------------------------------------------------------------------

/-- The thread holds `mut`. -/
def Point.Inside : Point T → Prop
  | .push _ | .notify | .test _ | .front _ | .pop _ _ | .unlock => True
  | .idle | .lockPush _ | .lockPop _ | .asleep _ | .notified _ | .awake _ => False

/-- Past the test the queue is not empty, and past the copy its front is known. -/
def PointOk (data_queue : List T) : Point T → Prop
  | .front _ => data_queue ≠ []
  | .pop _ res => data_queue.head? = some res
  | _ => True

/-- What the thread adds to the values that are looked after. -/
def Point.weight (p : Point T) : Nat := p.notifications + p.inHand

structure Inv (s : State τ T) : Prop where
  owned : Owned s.owner fun t => (s.points t).Inside
  points : ∀ t, PointOk s.data_queue (s.points t)
  fifo : Fifo s.history s.data_queue
  covered : (∃ t, (s.points t).Asleep) → s.data_queue.length ≤ total Point.weight s.points

variable {s s' : State τ T} {t u : τ} {p q : Point T} {data_queue : List T}
variable {history : List (Event Pop T)} {owner : Option τ}

theorem pointOk_outside (h : ¬ p.Inside) (data_queue : List T) : PointOk data_queue p := by
  cases p with
  | push | notify | test | front | pop | unlock => exact absurd trivial h
  | idle | lockPush | lockPop | asleep | notified | awake => trivial

/-- A move that adds to the queue no more than to the weights, or leaves it empty. -/
theorem covered_update (h : Inv s)
    (hcov : data_queue = [] ∨ ¬ p.Asleep ∧
      data_queue.length + (s.points t).weight ≤ s.data_queue.length + p.weight)
    (hsleep : ∃ u, (update s.points t p u).Asleep) :
    data_queue.length ≤ total Point.weight (update s.points t p) := by
  rcases hcov with rfl | ⟨hawake, hle⟩
  · exact Nat.zero_le _
  · obtain ⟨u, hu⟩ := hsleep
    have hne : u ≠ t := by
      rintro rfl
      rw [update_self] at hu
      exact hawake hu
    rw [update_of_ne hne] at hu
    have hold := h.covered ⟨u, hu⟩
    have htotal := total_update Point.weight s.points t p
    omega

/-- One thread moves; only the holder of the mutex changes the queue. -/
theorem Inv.move (h : Inv s) (howned : Owned owner fun u => (update s.points t p u).Inside)
    (hqueue : data_queue = s.data_queue ∨ (s.points t).Inside) (hok : PointOk data_queue p)
    (hfifo : Fifo history data_queue)
    (hcov : data_queue = [] ∨ ¬ p.Asleep ∧
      data_queue.length + (s.points t).weight ≤ s.data_queue.length + p.weight) :
    Inv { data_queue, owner, history, points := update s.points t p } where
  owned := howned
  points := (forall_update_iff s.points fun _ q => PointOk data_queue q).mpr ⟨hok, fun u hu => by
    rcases hqueue with rfl | hin
    · exact h.points u
    · exact pointOk_outside (fun hu' => hu (h.owned.unique hu' hin)) data_queue⟩
  fifo := hfifo
  covered := covered_update h hcov

theorem Inv.lock (h : Inv s) (hp : p.Inside) (hok : PointOk s.data_queue p) (hawake : ¬ p.Asleep)
    (hweight : (s.points t).weight ≤ p.weight) (hstep : s.lock t p = some s') : Inv s' := by
  simp only [State.lock, Option.ite_none_right_eq_some, Option.some.injEq] at hstep
  obtain ⟨hfree, rfl⟩ := hstep
  exact h.move ((hfree ▸ h.owned).acquire_update Point.Inside hp) (.inl rfl) hok h.fifo
    (.inr ⟨hawake, Nat.add_le_add_left hweight _⟩)

theorem Inv.outside (h : Inv s) (hin : ¬ (s.points t).Inside) (hp : ¬ p.Inside)
    (hawake : ¬ p.Asleep) (hweight : (s.points t).weight ≤ p.weight) : Inv (s.goto t p) :=
  h.move (h.owned.keep_update Point.Inside (iff_of_false hp hin)) (.inl rfl)
    (pointOk_outside hp _) h.fifo (.inr ⟨hawake, Nat.add_le_add_left hweight _⟩)

theorem Inv.inside (h : Inv s) (hin : (s.points t).Inside) (hp : p.Inside)
    (hok : PointOk data_queue p) (hfifo : Fifo history data_queue)
    (hcov : data_queue = [] ∨ ¬ p.Asleep ∧
      data_queue.length + (s.points t).weight ≤ s.data_queue.length + p.weight) :
    Inv { s.goto t p with data_queue, history } :=
  h.move (h.owned.keep_update Point.Inside (iff_of_true hp hin)) (.inr hin) hok hfifo hcov

theorem Inv.release (h : Inv s) (hin : (s.points t).Inside) (hp : ¬ p.Inside)
    (hcov : s.data_queue = [] ∨ ¬ p.Asleep ∧
      s.data_queue.length + (s.points t).weight ≤ s.data_queue.length + p.weight) :
    Inv { s.goto t p with owner := none } :=
  h.move (h.owned.release_update Point.Inside hin hp) (.inl rfl) (pointOk_outside hp _) h.fifo hcov


-- ---------------------------------------------------------------------------
-- The steps
-- ---------------------------------------------------------------------------

theorem inv_call (h : Inv s) (hp : ¬ p.Inside) (hawake : ¬ p.Asleep)
    (hstep : call s t p = some s') : Inv s' := by
  unfold call at hstep
  split at hstep
  · rename_i hidle
    cases hstep
    exact h.outside (by rw [hidle]; exact id) hp hawake (by rw [hidle]; exact Nat.zero_le _)
  · cases hstep

theorem inv_spurious (h : Inv s) (hstep : spurious s t = some s') : Inv s' := by
  unfold spurious at hstep
  split at hstep
  · rename_i o hasleep
    cases hstep
    exact h.outside (by rw [hasleep]; exact id) id id (by rw [hasleep]; exact Nat.zero_le _)
  · cases hstep

theorem inv_notify (h : Inv s) (hnotify : s.points t = .notify)
    (hnone : ∀ u, ¬ (s.points u).Asleep) : Inv (s.goto t .unlock) where
  owned := h.owned.keep_update Point.Inside (iff_of_true trivial (by rw [hnotify]; trivial))
  points := (forall_update_iff s.points fun _ q => PointOk s.data_queue q).mpr
    ⟨trivial, fun u _ => h.points u⟩
  fifo := h.fifo
  covered := by
    rintro ⟨u, hu⟩
    exact absurd hu ((forall_update_iff s.points fun _ q => ¬ q.Asleep).mpr
      ⟨id, fun u _ => hnone u⟩ u)

/-- The value in hand becomes the notification of the thread woken. -/
theorem inv_wake (h : Inv s) (hnotify : s.points t = .notify) (hasleep : s.points u = .asleep o) :
    Inv ((s.goto u (.notified o)).goto t .unlock) := by
  have hne : t ≠ u := by
    rintro rfl
    rw [hnotify] at hasleep
    cases hasleep
  have hpoint : (s.goto u (.notified o)).points t = .notify := by
    rw [← hnotify]
    exact update_of_ne hne _ _
  have hwoken : Inv (s.goto u (.notified o)) :=
    h.outside (by rw [hasleep]; exact id) id id (by rw [hasleep]; exact Nat.zero_le _)
  refine ⟨hwoken.owned.keep_update Point.Inside (iff_of_true trivial (by rw [hpoint]; trivial)),
    (forall_update_iff _ fun _ q => PointOk s.data_queue q).mpr
      ⟨trivial, fun u _ => hwoken.points u⟩, h.fifo, fun _ => ?_⟩
  have hold := h.covered ⟨u, by rw [hasleep]; trivial⟩
  have hfirst : total Point.weight (s.goto u (.notified o)).points + 0 =
      total Point.weight s.points + 1 := by
    have htotal := total_update Point.weight s.points u (.notified o)
    rwa [hasleep] at htotal
  have hsecond : total Point.weight (update (s.goto u (.notified o)).points t .unlock) + 1 =
      total Point.weight (s.goto u (.notified o)).points + 0 := by
    have htotal := total_update Point.weight (s.goto u (.notified o)).points t .unlock
    rwa [hpoint] at htotal
  have heq : total Point.weight (update (s.goto u (.notified o)).points t .unlock) =
      total Point.weight s.points :=
    Nat.add_right_cancel (hsecond.trans hfirst)
  exact heq ▸ hold

theorem inv_notifyOne (h : Inv s) (hstep : notifyOne s t woken = some s') : Inv s' := by
  cases hp : s.points t with
  | notify =>
    simp only [notifyOne, hp] at hstep
    cases woken with
    | none =>
      simp only [Option.ite_none_right_eq_some, Option.some.injEq] at hstep
      obtain ⟨hnone, rfl⟩ := hstep
      exact inv_notify h hp hnone
    | some u =>
      cases hu : s.points u with
      | asleep o =>
        simp only [hu, Option.some.injEq] at hstep
        exact hstep ▸ inv_wake h hp hu
      | _ => simp [hu] at hstep
  | _ => simp [notifyOne, hp] at hstep

theorem inv_run (h : Inv s) (hstep : run s t = some s') : Inv s' := by
  have hok := h.points t
  unfold run at hstep
  cases hp : s.points t with
  | idle | notify | asleep => simp [hp] at hstep
  | lockPush new_value =>
    rw [hp] at hstep
    exact h.lock (p := .push new_value) trivial trivial id (by rw [hp]; exact Nat.zero_le _) hstep
  | lockPop op =>
    rw [hp] at hstep
    exact h.lock (p := .test op) trivial trivial id (by rw [hp]; exact Nat.zero_le _) hstep
  | notified o =>
    rw [hp] at hstep
    exact h.lock (p := .test (.waitAndPop o)) trivial trivial id (by rw [hp]; exact Nat.le_refl _)
      hstep
  | awake o =>
    rw [hp] at hstep
    exact h.lock (p := .test (.waitAndPop o)) trivial trivial id (by rw [hp]; exact Nat.zero_le _)
      hstep
  | push new_value =>
    simp only [hp, Option.some.injEq] at hstep
    subst hstep
    refine h.inside (by rw [hp]; trivial) trivial trivial (.push new_value h.fifo) (.inr ⟨id, ?_⟩)
    rw [hp, List.length_append]
    exact Nat.le_refl _
  | test op =>
    have hin : (s.points t).Inside := by rw [hp]; trivial
    simp only [hp] at hstep
    split at hstep
    · rename_i hempty
      have hnil := List.isEmpty_iff.mp hempty
      cases op with
      | waitAndPop o =>
        cases hstep
        exact h.release hin id (.inl hnil)
      | tryPop o =>
        cases hstep
        exact h.inside hin trivial trivial (hnil ▸ .empty (.tryPop o) (hnil ▸ h.fifo)) (.inl hnil)
    · rename_i hempty
      cases hstep
      refine h.inside hin trivial (fun hnil => hempty (List.isEmpty_iff.mpr hnil)) h.fifo
        (.inr ⟨id, ?_⟩)
      rw [hp]
      exact Nat.le_refl _
  | front op =>
    simp only [hp, Option.map_eq_some_iff] at hstep
    obtain ⟨res, hfront, rfl⟩ := hstep
    refine h.inside (by rw [hp]; trivial) trivial hfront h.fifo (.inr ⟨id, ?_⟩)
    rw [hp]
    exact Nat.le_refl _
  | pop op res =>
    simp only [hp, Option.some.injEq] at hstep
    subst hstep
    rw [hp] at hok
    obtain ⟨rest, hqueue⟩ := List.head?_eq_some_iff.mp hok
    have hfifo := h.fifo
    rw [hqueue] at hfifo
    refine h.inside (by rw [hp]; trivial) trivial trivial ?_ (.inr ⟨id, ?_⟩)
    · rw [hqueue]
      exact .pop op hfifo
    · rw [hp, hqueue]
      exact Nat.le_refl _
  | unlock =>
    simp only [hp, Option.some.injEq] at hstep
    subst hstep
    refine h.release (by rw [hp]; trivial) id (.inr ⟨id, ?_⟩)
    rw [hp]
    exact Nat.le_refl _

theorem inv_step (h : Inv s) (hstep : step s a = some s') : Inv s' := by
  cases a with
  | push t new_value => exact inv_call h id id hstep
  | pop t op => exact inv_call h id id hstep
  | run t => exact inv_run h hstep
  | notify t woken => exact inv_notifyOne h hstep
  | spurious t => exact inv_spurious h hstep

theorem inv_init : Inv (system τ T).init where
  owned _ := iff_of_false nofun id
  points _ := trivial
  fifo := .nil
  covered := fun ⟨_, h⟩ => h.elim

theorem reachable_inv (h : (system τ T).Reachable anyStep s) : Inv s :=
  h.invariant inv_init fun _ _ _ hs _ hstep => inv_step hs hstep

-- ---------------------------------------------------------------------------
-- Every run
-- ---------------------------------------------------------------------------

omit [DecidableEq τ] in
/-- Whoever has a value in hand holds the mutex. -/
theorem Inv.inHand_eq_zero (h : Inv s) (hfree : s.owner = none) :
    total Point.inHand s.points = 0 := by
  refine total_eq_zero fun t => ?_
  have hout := (hfree ▸ h.owned).outside t
  cases hp : s.points t with
  | push | notify | test | front | pop | unlock =>
    rw [hp] at hout
    exact absurd trivial hout
  | idle | lockPush | lockPop | asleep | notified | awake => rfl

omit [DecidableEq τ] in
theorem total_weight (points : τ → Point T) :
    total Point.weight points = total Point.notifications points + total Point.inHand points :=
  Finset.sum_add_distrib

/-- In every run the queue is a queue, and no value waits while all that could
take it sleep. -/
theorem queue_correct (s : State τ T) (h : (system τ T).Reachable anyStep s) : Correct s := by
  have hinv := reachable_inv h
  have hinside : (∃ t, (s.points t).Asleep) → s.data_queue.length ≤
      total Point.notifications s.points + total Point.inHand s.points := by
    rw [← total_weight]
    exact hinv.covered
  refine ⟨hinv.fifo, hinv.fifo.order, fun pre op post heq => ?_, fun hfree hsleep => ?_, hinside⟩
  · exact Fifo.order_of_empty (heq ▸ hinv.fifo)
  · have hle := hinside hsleep
    rwa [hinv.inHand_eq_zero hfree] at hle

/-- Two threads sleep, and a third one pushes a value: one of the two is on its way. -/
theorem queue_correct_three : ∃ s : State (Fin 3) Nat, s.data_queue = [7] ∧ s.owner = none ∧
    s.points 0 = .asleep .value ∧ s.points 1 = .notified .shared ∧ Correct s := by
  obtain ⟨s, hs, hend⟩ := reachable_of_exec (system (Fin 3) Nat)
    [.pop 0 (.waitAndPop .value), .run 0, .run 0, .pop 1 (.waitAndPop .shared), .run 1, .run 1,
      .push 2 7, .run 2, .run 2, .notify 2 (some 1), .run 2]
    (fun s => s.data_queue = [7] ∧ s.owner = none ∧ s.points 0 = .asleep .value ∧
      s.points 1 = .notified .shared) (by decide +kernel)
  obtain ⟨hqueue, hfree, hasleep, hnotified⟩ := of_decide_eq_true hend
  exact ⟨s, hqueue, hfree, hasleep, hnotified, queue_correct s hs⟩

end DdsAuto.Concurrent.ThreadsafeQueue
