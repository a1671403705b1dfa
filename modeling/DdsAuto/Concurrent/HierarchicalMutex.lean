import DdsAuto.Lib.LockOrder
import DdsAuto.Lib.Lts
import DdsAuto.Lib.Mutex

/-!
# `hierarchical_mutex`

Any number of threads and mutexes. The checks touch only the calling thread's
own `_this_thread_hierarchy_value` and are one step with the start of the call;
taking `_internal_mutex` and each store after it is a step of its own.
`held` is what a thread has locked and not unlocked, the last one first.
`hierarchy_correct`: no thread waits for itself, however the values are chosen.
-/

namespace DdsAuto.Concurrent.HierarchicalMutex

open Lts Mutex LockOrder

/-- `ULONG_MAX`. -/
abbrev ulongMax : UInt64 := 18446744073709551615

/-- Where a thread is: outside all calls; at `_internal_mutex.lock()` or
`try_lock()`; before either store of `update_hierarchy_value`; before
`_internal_mutex.unlock()`. -/
inductive Point (M : Type)
  | idle
  | lock (m : M)
  | tryLock (m : M)
  | update (m : M)
  | updated (m : M)
  | unlock (m : M)
  deriving DecidableEq, Repr

/-- How a thread's last call ended; `none` during a call. -/
inductive Result
  | none
  | returned (value : Bool)
  | threw
  deriving DecidableEq, Repr

/-- `hierarchyValue` is `_this_thread_hierarchy_value`. -/
structure Thread (M : Type) where
  hierarchyValue : UInt64
  point : Point M
  result : Result
  held : List M

/-- `owner` is who has `_internal_mutex`. -/
structure State (T M : Type) where
  owner : M → Option T
  previous : M → UInt64
  threads : T → Thread M

inductive Label (T M : Type)
  | lock (t : T) (m : M)
  | tryLock (t : T) (m : M)
  | unlock (t : T) (m : M)
  | run (t : T) (free : Bool)

def Label.thread : Label T M → T
  | .lock t _ | .tryLock t _ | .unlock t _ | .run t _ => t

section
variable {T M : Type} [DecidableEq T] [DecidableEq M] (value : M → UInt64)

/-- `check_for_hierarchy_violation`, and then the call goes on at `p`. -/
def Thread.checked (th : Thread M) (m : M) (p : Point M) : Thread M :=
  if th.hierarchyValue ≤ value m then { th with result := .threw }
  else { th with point := p, result := .none }

def State.setThread (s : State T M) (t : T) (th : Thread M) : State T M :=
  { s with threads := Function.update s.threads t th }

def lock (s : State T M) (t : T) (m : M) : State T M :=
  s.setThread t ((s.threads t).checked value m (.lock m))

def tryLock (s : State T M) (t : T) (m : M) : State T M :=
  s.setThread t ((s.threads t).checked value m (.tryLock m))

/-- `unlock` up to `_internal_mutex.unlock()`. -/
def unlock (s : State T M) (t : T) (m : M) : State T M :=
  let th := s.threads t
  if th.hierarchyValue ≠ value m then s.setThread t { th with result := .threw }
  else
    s.setThread t
      { hierarchyValue := s.previous m, point := .unlock m, result := .none, held := th.held.erase m }

def State.take (s : State T M) (t : T) (m : M) : State T M :=
  { s with owner := Function.update s.owner m (some t) }.setThread t
    { s.threads t with point := .update m }

/-- The next step of a call; `free` lets `try_lock` find the mutex free, which
it need not even when it is. -/
def run (s : State T M) (t : T) (free : Bool) : Option (State T M) :=
  let th := s.threads t
  match th.point with
  | .idle => none
  | .lock m => if s.owner m = none then some (s.take t m) else none
  | .tryLock m =>
    if s.owner m = none ∧ free then some (s.take t m)
    else some (s.setThread t { th with point := .idle, result := .returned false })
  | .update m =>
    some ({ s with previous := Function.update s.previous m th.hierarchyValue }.setThread t
      { th with point := .updated m })
  | .updated m =>
    some (s.setThread t
      { hierarchyValue := value m, point := .idle, result := .returned true, held := m :: th.held })
  | .unlock m =>
    some ({ s with owner := Function.update s.owner m none }.setThread t
      { th with point := .idle, result := .returned true })

/-- A thread starts a call when it is in none, and `unlock` only on a mutex it
holds. -/
def step (s : State T M) : Label T M → Option (State T M)
  | .lock t m => if (s.threads t).point = .idle then some (lock value s t m) else none
  | .tryLock t m => if (s.threads t).point = .idle then some (tryLock value s t m) else none
  | .unlock t m =>
    if (s.threads t).point = .idle ∧ s.owner m = some t then some (unlock value s t m) else none
  | .run t free => run value s t free

def system : Lts (State T M) (Label T M) where
  init :=
    { owner := fun _ => none
      previous := fun _ => 0
      threads := fun _ => ⟨ulongMax, .idle, .none, []⟩ }
  step := step value

/-- `t` is blocked in `lock` on a mutex that `u` has. -/
def WaitsFor (s : State T M) (t u : T) : Prop :=
  ∃ m, (s.threads t).point = .lock m ∧ s.owner m = some u

/-- What the class promises of a state. -/
structure Correct (s : State T M) : Prop where
  owns : ∀ t, ∀ m ∈ (s.threads t).held, s.owner m = some t
  held : ∀ t m, (s.threads t).point = .idle → s.owner m = some t → m ∈ (s.threads t).held
  top : ∀ t, (s.threads t).hierarchyValue = top value ulongMax (s.threads t).held
  descending : ∀ t, Descending value (s.threads t).held
  noCycle : ∀ t, ¬ Relation.TransGen (WaitsFor s) t t

/-- No mutex and no thread has changed hands or values. -/
structure Unchanged (s s' : State T M) : Prop where
  owner : s'.owner = s.owner
  previous : s'.previous = s.previous
  hierarchyValue : ∀ t, (s'.threads t).hierarchyValue = (s.threads t).hierarchyValue

-- ---------------------------------------------------------------------------
-- The invariant
-- ---------------------------------------------------------------------------

/-- The mutex whose `_internal_mutex` a call has taken and not yet entered into
`held`, or is about to give back. -/
def Point.inside : Point M → Option M
  | .update m | .updated m | .unlock m => some m
  | _ => none

def Thread.Holds (th : Thread M) (m : M) : Prop := m ∈ th.held ∨ th.point.inside = some m

def PointOk (previous : M → UInt64) (th : Thread M) : Point M → Prop
  | .idle => True
  | .lock m | .tryLock m | .update m => value m < th.hierarchyValue
  | .updated m => value m < th.hierarchyValue ∧ previous m = th.hierarchyValue
  | .unlock m => m ∉ th.held

structure ThreadInv (previous : M → UInt64) (th : Thread M) : Prop where
  top : th.hierarchyValue = top value ulongMax th.held
  descending : Descending value th.held
  saves : Saves value ulongMax previous th.held
  point : PointOk value previous th th.point
  running : th.point ≠ .idle → th.result = .none

structure Inv (s : State T M) : Prop where
  threads : ∀ t, ThreadInv value s.previous (s.threads t)
  owned : ∀ m, Owned (s.owner m) fun t => (s.threads t).Holds m

end

section
variable {T M : Type} {value : M → UInt64} {s s' : State T M} {t : T} {m : M}
  {th : Thread M} {previous previous' : M → UInt64}

/-- A thread depends on what is saved in the mutexes it has, and on no other. -/
theorem ThreadInv.congr (h : ThreadInv value previous th)
    (hsame : ∀ m, th.Holds m → previous' m = previous m) : ThreadInv value previous' th := by
  refine ⟨h.top, h.descending, h.saves.congr fun m hm => hsame m (.inl hm), ?_, h.running⟩
  have hpoint := h.point
  cases hp : th.point with
  | updated m =>
    rw [hp] at hpoint
    exact ⟨hpoint.1, (hsame m (.inr (by rw [hp]; rfl))).trans hpoint.2⟩
  | idle => trivial
  | lock | tryLock | update | unlock =>
    rw [hp] at hpoint
    exact hpoint

theorem holds_of_inside (hp : th.point.inside = none) : th.Holds m ↔ m ∈ th.held := by
  rw [Thread.Holds, hp]
  simp

theorem threadInv_threw (h : ThreadInv value previous th) (hidle : th.point = .idle) :
    ThreadInv value previous { th with result := .threw } :=
  ⟨h.top, h.descending, h.saves, h.point, fun hne => absurd hidle hne⟩

/-- A blocked thread waits below its own value, for a lock not below the
other's. -/
theorem waitsFor_lt (h : Inv value s) (hwait : WaitsFor s t u) (hu : ∃ v, WaitsFor s u v) :
    (s.threads u).hierarchyValue < (s.threads t).hierarchyValue := by
  obtain ⟨m, hp, hown⟩ := hwait
  obtain ⟨v, n, hpu, -⟩ := hu
  have hlt := (h.threads t).point
  rw [hp] at hlt
  have hheld : m ∈ (s.threads u).held :=
    (holds_of_inside (by rw [hpu]; rfl)).mp ((h.owned m u).mp hown)
  have hle : (s.threads u).hierarchyValue ≤ value m := by
    rw [(h.threads u).top]
    exact (h.threads u).descending.top_le hheld
  exact UInt64.lt_of_le_of_lt hle hlt

theorem correct_of_inv (h : Inv value s) : Correct value s where
  owns t m hm := (h.owned m t).mpr (.inl hm)
  held t m hidle hown := (holds_of_inside (by rw [hidle]; rfl)).mp ((h.owned m t).mp hown)
  top t := (h.threads t).top
  descending t := (h.threads t).descending
  noCycle := not_cyclic fun _ _ => waitsFor_lt h

variable [DecidableEq T]

@[simp] theorem setThread_owner : (s.setThread t th).owner = s.owner := rfl

@[simp] theorem setThread_previous : (s.setThread t th).previous = s.previous := rfl

@[simp] theorem setThread_threads :
    (s.setThread t th).threads = Function.update s.threads t th := rfl

theorem Inv.setThread (h : Inv value s) (hth : ThreadInv value s.previous th)
    (hholds : ∀ m, th.Holds m ↔ (s.threads t).Holds m) : Inv value (s.setThread t th) := by
  refine ⟨(Function.forall_update_iff s.threads _).mpr ⟨hth, fun u _ => h.threads u⟩, fun m => ?_⟩
  exact (h.owned m).keep_update (Thread.Holds · m) (hholds m)

-- ---------------------------------------------------------------------------
-- Calls
-- ---------------------------------------------------------------------------

theorem inv_checked (h : Inv value s) (hidle : (s.threads t).point = .idle)
    (hp : p.inside = none)
    (hok : ∀ th : Thread M, value m < th.hierarchyValue → PointOk value s.previous th p) :
    Inv value (s.setThread t ((s.threads t).checked value m p)) := by
  have ht := h.threads t
  unfold Thread.checked
  split
  · refine h.setThread (threadInv_threw ht hidle) fun n => ?_
    exact Iff.rfl
  · rename_i hle
    refine h.setThread ⟨ht.top, ht.descending, ht.saves, hok _ (UInt64.not_le.mp hle), ?_⟩ fun n => ?_
    · exact fun _ => rfl
    · rw [holds_of_inside hp, holds_of_inside (by rw [hidle]; rfl)]

theorem inv_unlock [DecidableEq M] (h : Inv value s) (hidle : (s.threads t).point = .idle)
    (hown : s.owner m = some t) : Inv value (unlock value s t m) := by
  have ht := h.threads t
  have hinside : (s.threads t).point.inside = none := by rw [hidle]; rfl
  have hmem : m ∈ (s.threads t).held := (holds_of_inside hinside).mp ((h.owned m t).mp hown)
  unfold unlock
  simp only
  split
  · exact h.setThread (threadInv_threw ht hidle) fun n => Iff.rfl
  · rename_i hne
    have htop := ht.top
    rw [not_not.mp hne] at htop
    obtain ⟨rest, hheld⟩ := ht.descending.eq_top hmem htop.symm
    have hdesc := ht.descending
    have hsaves := ht.saves
    have hnodup := hdesc.nodup
    rw [hheld] at hdesc hsaves hnodup
    rw [hheld, List.erase_cons_head]
    refine h.setThread ⟨hsaves.1, hdesc.tail, hsaves.2, (List.nodup_cons.mp hnodup).1, ?_⟩ fun n => ?_
    · exact fun _ => rfl
    · rw [holds_of_inside hinside, hheld]
      simp [Thread.Holds, Point.inside, or_comm, eq_comm]

-- ---------------------------------------------------------------------------
-- The steps of a call
-- ---------------------------------------------------------------------------

theorem inv_take [DecidableEq M] (h : Inv value s) (hfree : s.owner m = none)
    (hinside : (s.threads t).point.inside = none) (hlt : value m < (s.threads t).hierarchyValue)
    (hresult : (s.threads t).result = .none) : Inv value (s.take t m) := by
  have ht := h.threads t
  refine ⟨?_, fun n => ?_⟩
  · refine (Function.forall_update_iff s.threads _).mpr ⟨?_, fun u _ => h.threads u⟩
    exact ⟨ht.top, ht.descending, ht.saves, hlt, fun _ => hresult⟩
  · have howned := h.owned n
    simp only [State.take, setThread_owner, setThread_threads]
    by_cases hn : n = m
    · subst hn
      rw [hfree] at howned
      rw [Function.update_self]
      exact howned.acquire_update (Thread.Holds · n) (.inr rfl)
    · rw [Function.update_of_ne hn]
      refine howned.keep_update (Thread.Holds · n) ?_
      rw [holds_of_inside hinside, Thread.Holds]
      simp [Point.inside, Ne.symm hn]

/-- `_previous_hierarchy_value` is stored by the thread that has the mutex. -/
theorem inv_update [DecidableEq M] (h : Inv value s) (hp : (s.threads t).point = .update m) :
    Inv value ({ s with
      previous := Function.update s.previous m (s.threads t).hierarchyValue }.setThread t
        { s.threads t with point := .updated m }) := by
  have ht := h.threads t
  have hpoint := ht.point
  rw [hp] at hpoint
  have hlt : value m < (s.threads t).hierarchyValue := hpoint
  have hinside : (s.threads t).point.inside = some m := by rw [hp]; rfl
  have hother (u : T) (hu : u ≠ t) : ¬ (s.threads u).Holds m := by
    intro hholds
    exact hu ((h.owned m).unique hholds (.inr hinside))
  refine ⟨?_, fun n => ?_⟩
  · refine (Function.forall_update_iff s.threads _).mpr ⟨?_, fun u hu => ?_⟩
    · refine ⟨ht.top, ht.descending, ?_, ⟨hlt, Function.update_self ..⟩, fun _ => ?_⟩
      · have hnew : m ∉ (s.threads t).held := ht.descending.notMem (ht.top ▸ hlt)
        refine ht.saves.congr fun n hn => Function.update_of_ne ?_ ..
        rintro rfl
        exact hnew hn
      · exact ht.running (by simp [hp])
    · refine (h.threads u).congr fun n hn => Function.update_of_ne ?_ ..
      rintro rfl
      exact hother u hu hn
  · refine (h.owned n).keep_update (Thread.Holds · n) ?_
    rw [Thread.Holds, Thread.Holds, hinside]
    exact Iff.rfl

theorem inv_updated (h : Inv value s) (hp : (s.threads t).point = .updated m) :
    Inv value (s.setThread t { hierarchyValue := value m, point := .idle,
                               result := .returned true, held := m :: (s.threads t).held }) := by
  have ht := h.threads t
  have hpoint := ht.point
  rw [hp] at hpoint
  obtain ⟨hlt, hprev⟩ := hpoint
  rw [ht.top] at hlt hprev
  refine h.setThread ⟨rfl, ht.descending.push hlt, ⟨hprev, ht.saves⟩, trivial, ?_⟩ fun n => ?_
  · exact fun hne => absurd rfl hne
  · simp [Thread.Holds, hp, Point.inside, or_comm, eq_comm]

theorem inv_release [DecidableEq M] (h : Inv value s) (hp : (s.threads t).point = .unlock m) :
    Inv value ({ s with owner := Function.update s.owner m none }.setThread t
      { s.threads t with point := .idle, result := .returned true }) := by
  have ht := h.threads t
  have hpoint := ht.point
  rw [hp] at hpoint
  have hout : m ∉ (s.threads t).held := hpoint
  have hinside : (s.threads t).point.inside = some m := by rw [hp]; rfl
  refine ⟨?_, fun n => ?_⟩
  · refine (Function.forall_update_iff s.threads _).mpr ⟨?_, fun u _ => h.threads u⟩
    exact ⟨ht.top, ht.descending, ht.saves, trivial, fun hne => absurd rfl hne⟩
  · have howned := h.owned n
    simp only [setThread_owner, setThread_threads]
    by_cases hn : n = m
    · subst hn
      rw [Function.update_self]
      refine howned.release_update (Thread.Holds · n) (.inr hinside) ?_
      rw [holds_of_inside rfl]
      exact hout
    · rw [Function.update_of_ne hn]
      refine howned.keep_update (Thread.Holds · n) ?_
      rw [holds_of_inside rfl, Thread.Holds, hinside]
      simp [Ne.symm hn]

theorem inv_run [DecidableEq M] (h : Inv value s) (hstep : run value s t free = some s') : Inv value s' := by
  have ht := h.threads t
  have hpoint := ht.point
  cases hp : (s.threads t).point with
  | idle => simp [run, hp] at hstep
  | lock m =>
    simp only [run, hp, Option.ite_none_right_eq_some, Option.some.injEq] at hstep
    obtain ⟨hfree, rfl⟩ := hstep
    rw [hp] at hpoint
    exact inv_take h hfree (by rw [hp]; rfl) hpoint (ht.running (by simp [hp]))
  | tryLock m =>
    simp only [run, hp] at hstep
    rw [hp] at hpoint
    split at hstep
    · rename_i hfree
      cases hstep
      exact inv_take h hfree.1 (by rw [hp]; rfl) hpoint (ht.running (by simp [hp]))
    · cases hstep
      refine h.setThread ⟨ht.top, ht.descending, ht.saves, trivial, fun hne => absurd rfl hne⟩ ?_
      exact fun n => by rw [holds_of_inside rfl, holds_of_inside (by rw [hp]; rfl)]
  | update m =>
    simp only [run, hp, Option.some.injEq] at hstep
    subst hstep
    exact inv_update h hp
  | updated m =>
    simp only [run, hp, Option.some.injEq] at hstep
    subst hstep
    exact inv_updated h hp
  | unlock m =>
    simp only [run, hp, Option.some.injEq] at hstep
    subst hstep
    exact inv_release h hp

theorem inv_step [DecidableEq M] (h : Inv value s) (hstep : step value s a = some s') : Inv value s' := by
  cases a with
  | lock t m =>
    simp only [step, Option.ite_none_right_eq_some, Option.some.injEq] at hstep
    obtain ⟨hidle, rfl⟩ := hstep
    exact inv_checked h hidle rfl fun _ hlt => hlt
  | tryLock t m =>
    simp only [step, Option.ite_none_right_eq_some, Option.some.injEq] at hstep
    obtain ⟨hidle, rfl⟩ := hstep
    exact inv_checked h hidle rfl fun _ hlt => hlt
  | unlock t m =>
    simp only [step, Option.ite_none_right_eq_some, Option.some.injEq] at hstep
    obtain ⟨⟨hidle, hown⟩, rfl⟩ := hstep
    exact inv_unlock h hidle hown
  | run t free => exact inv_run h hstep

theorem inv_of_reachable [DecidableEq M] (h : (system value).Reachable anyStep s) : Inv value s := by
  refine h.invariant (P := Inv value) ⟨fun t => ?_, fun m => ?_⟩ fun _ _ _ hs _ hstep => inv_step hs hstep
  · exact ⟨rfl, .nil, trivial, trivial, fun hne => absurd rfl hne⟩
  · intro t
    simp [system, Thread.Holds, Point.inside]

-- ---------------------------------------------------------------------------
-- Calls that throw
-- ---------------------------------------------------------------------------

theorem unchanged_setThread (hv : th.hierarchyValue = (s.threads t).hierarchyValue) :
    Unchanged s (s.setThread t th) := by
  refine ⟨rfl, rfl, fun u => ?_⟩
  by_cases hu : u = t
  · subst hu
    rw [setThread_threads, Function.update_self, hv]
  · rw [setThread_threads, Function.update_of_ne hu]

theorem unchanged_checked
    (hthrew : ((s.setThread t ((s.threads t).checked value m p)).threads t).result = .threw) :
    Unchanged s (s.setThread t ((s.threads t).checked value m p)) := by
  rw [setThread_threads, Function.update_self] at hthrew
  unfold Thread.checked at hthrew ⊢
  split
  · exact unchanged_setThread rfl
  · rename_i hgoes
    rw [if_neg hgoes] at hthrew
    cases hthrew

theorem unchanged_of_threw [DecidableEq M] (h : Inv value s) (hstep : step value s a = some s')
    (hthrew : (s'.threads a.thread).result = .threw) : Unchanged s s' := by
  cases a with
  | lock t m =>
    simp only [step, Option.ite_none_right_eq_some, Option.some.injEq] at hstep
    obtain ⟨-, rfl⟩ := hstep
    exact unchanged_checked hthrew
  | tryLock t m =>
    simp only [step, Option.ite_none_right_eq_some, Option.some.injEq] at hstep
    obtain ⟨-, rfl⟩ := hstep
    exact unchanged_checked hthrew
  | unlock t m =>
    simp only [step, Option.ite_none_right_eq_some, Option.some.injEq] at hstep
    obtain ⟨-, rfl⟩ := hstep
    simp only [unlock, Label.thread] at hthrew ⊢
    split
    · exact unchanged_setThread rfl
    · rename_i hgoes
      rw [if_neg hgoes, setThread_threads, Function.update_self] at hthrew
      cases hthrew
  | run t free =>
    -- a call under way has passed its check
    have hresult := (h.threads t).running
    cases hp : (s.threads t).point <;> simp only [step, run, hp] at hstep
    case idle => cases hstep
    case lock m =>
      simp only [Option.ite_none_right_eq_some, Option.some.injEq] at hstep
      obtain ⟨-, rfl⟩ := hstep
      simp [Label.thread, State.take, hresult, hp] at hthrew
    case tryLock m =>
      split at hstep
      all_goals
        cases hstep
        simp [Label.thread, State.take, hresult, hp] at hthrew
    all_goals
      cases hstep
      simp [Label.thread, hresult, hp] at hthrew

end

/-- The class keeps its promises in every state, and a call that throws changes
no owner and no value. -/
theorem hierarchy_correct {T M : Type} [DecidableEq T] [DecidableEq M] (value : M → UInt64)
    {s : State T M} (h : (system value).Reachable anyStep s) :
    Correct value s ∧ ∀ a s', step value s a = some s' →
      (s'.threads a.thread).result = .threw → Unchanged s s' := by
  have hinv := inv_of_reachable h
  exact ⟨correct_of_inv hinv, fun a s' hstep hthrew => unchanged_of_threw hinv hstep hthrew⟩

/-- Two mutexes of equal value and one below: a thread holds two and is refused
the third, another is blocked. -/
theorem hierarchy_correct_three : ∃ s : State Bool (Fin 3),
    (s.threads true).held = [1, 0] ∧ WaitsFor s false true ∧
      Correct (fun m => if m = 1 then 500 else 1000) s ∧
      ∀ s', step (fun m => if m = 1 then 500 else 1000) s (.lock true 2) = some s' →
        Unchanged s s' := by
  obtain ⟨s, hs, hcheck⟩ := reachable_of_exec
    (system (T := Bool) fun m : Fin 3 => if m = 1 then 500 else 1000)
    [.lock true 0, .run true true, .run true true, .run true true, .tryLock true 1,
      .run true true, .run true true, .run true true, .lock false 0]
    (fun s => decide ((s.threads true).held = [1, 0] ∧ (s.threads true).point = .idle ∧
      (s.threads false).point = .lock 0 ∧ s.owner 0 = some true))
    (by decide +kernel)
  obtain ⟨hheld, hidle, hpoint, hown⟩ := of_decide_eq_true hcheck
  obtain ⟨hcorrect, hthrows⟩ := hierarchy_correct _ hs
  refine ⟨s, hheld, ⟨0, hpoint, hown⟩, hcorrect, fun s' hstep => hthrows _ s' hstep ?_⟩
  have htop := hcorrect.top true
  rw [hheld] at htop
  simp only [step, hidle, if_true, Option.some.injEq] at hstep
  subst hstep
  simp [Label.thread, lock, Thread.checked, htop, top]

end DdsAuto.Concurrent.HierarchicalMutex
