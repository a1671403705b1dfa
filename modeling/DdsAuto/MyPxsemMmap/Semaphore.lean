import DdsAuto.Lib.Lts
import Mathlib.Data.Finset.Card

/-!
# The semaphore of `my_pxsem_mmap`

`mysem_wait`, `mysem_post` and `mysem_trywait` on one mapped semaphore, as
steps of any number of processes. The mutex makes each critical section one
step; a process in `pthread_cond_wait` is blocked until a signal picks it, and
it may also come back without one.

`mysem_post` signals only when it finds the count at 0. A second post that
arrives before the process the first one picked has run finds it at 1, so it
wakes nobody, and a process sleeps on at a positive count.
-/

namespace DdsAuto.MyPxsemMmap

/-- `0x67458923`. -/
def SEM_MAGIC : Nat := 1732610339

/-- Of `mysem_t`, what the calls read: the mutex and the condition variable are
the steps and the sets of `State`. -/
structure Mysem where
  sem_count : Nat
  sem_magic : Nat
  deriving DecidableEq, Repr

/-- What a call returns: 0, or -1 with `errno`. -/
inductive Result
  | done
  | einval
  | eagain
  deriving DecidableEq, Repr

/-- The semaphore after the call, and whether it called `pthread_cond_signal`. -/
def mysemPost (sem : Mysem) : Mysem × Bool × Result :=
  if sem.sem_magic ≠ SEM_MAGIC then (sem, false, .einval)
  else ({ sem with sem_count := (sem.sem_count + 1) % 4294967296 }, sem.sem_count == 0, .done)

def mysemTrywait (sem : Mysem) : Mysem × Result :=
  if sem.sem_magic ≠ SEM_MAGIC then (sem, .einval)
  else if sem.sem_count > 0 then ({ sem with sem_count := sem.sem_count - 1 }, .done)
  else (sem, .eagain)

/-- `mysem_wait` with the mutex held, from the test of its loop: `none` is
`pthread_cond_wait`. -/
def mysemWaitLoop (sem : Mysem) : Option Mysem :=
  if sem.sem_count = 0 then none else some { sem with sem_count := sem.sem_count - 1 }

-- ---------------------------------------------------------------------------
-- The processes
-- ---------------------------------------------------------------------------

open Lts

variable {P : Type} [DecidableEq P]

structure State (P : Type) where
  sem : Mysem
  /-- In `pthread_cond_wait`, picked by no signal. -/
  blocked : Finset P
  /-- Picked by a signal and not yet back from `pthread_cond_wait`. -/
  signalled : Finset P
  /-- Posts that have returned 0. -/
  posts : Nat
  /-- Waits and trywaits that have returned 0. -/
  taken : Nat

inductive Label (P : Type)
  | wait (p : P)
  | resume (p : P)
  | spurious (p : P)
  | post (p : P) (woken : Finset P)
  | trywait (p : P)

/-- `p` is in none of the calls. -/
def State.Idle (s : State P) (p : P) : Prop := p ∉ s.blocked ∧ p ∉ s.signalled

/-- What `pthread_cond_signal` may unblock: at least one of the processes
blocked on the condition, if there are any. -/
def State.Wakes (s : State P) (woken : Finset P) : Prop :=
  woken ⊆ s.blocked ∧ (s.blocked.Nonempty → woken.Nonempty)

instance (s : State P) (p : P) : Decidable (s.Idle p) := by unfold State.Idle; infer_instance

instance (s : State P) (woken : Finset P) : Decidable (s.Wakes woken) := by
  unfold State.Wakes; infer_instance

/-- `p` holds the mutex in `mysem_wait`. -/
def State.waitLoop (s : State P) (p : P) : State P :=
  match mysemWaitLoop s.sem with
  | none => { s with blocked := insert p s.blocked }
  | some sem => { s with sem := sem, taken := s.taken + 1 }

def step (s : State P) : Label P → Option (State P)
  | .wait p =>
    if s.Idle p then
      if s.sem.sem_magic ≠ SEM_MAGIC then some s else some (s.waitLoop p)
    else none
  | .resume p =>
    if p ∈ s.signalled then
      let s' := { s with signalled := s.signalled.erase p }
      some (s'.waitLoop p)
    else none
  | .spurious p =>
    if p ∈ s.blocked then
      let s' := { s with blocked := s.blocked.erase p }
      some (s'.waitLoop p)
    else none
  | .post p woken =>
    if s.Idle p then
      match mysemPost s.sem with
      | (sem, true, .done) =>
        if s.Wakes woken then
          let s' := { s with
            sem := sem
            blocked := s.blocked \ woken
            signalled := s.signalled ∪ woken
            posts := s.posts + 1 }
          some s'
        else none
      | (sem, false, .done) => some { s with sem := sem, posts := s.posts + 1 }
      | _ => some s
    else none
  | .trywait p =>
    if s.Idle p then
      match mysemTrywait s.sem with
      | (sem, .done) => some { s with sem := sem, taken := s.taken + 1 }
      | _ => some s
    else none

/-- Processes on a valid semaphore with an initial count. -/
def system (P : Type) [DecidableEq P] (value : UInt32) : Lts (State P) (Label P) where
  init := ⟨⟨value.toNat, SEM_MAGIC⟩, ∅, ∅, 0, 0⟩
  step := step

/-- A process sleeps at a positive count and no signal is on its way. -/
def State.Forgotten (s : State P) : Prop :=
  0 < s.sem.sem_count ∧ s.blocked.Nonempty ∧ s.signalled = ∅

/-- The count is what was there, plus the posts, less what was taken. -/
def State.Accounted (value : UInt32) (s : State P) : Prop :=
  (s.sem.sem_count : Int) = value.toNat + s.posts - s.taken

/-- A post keeps the count below 2^32; and if it finds a process blocked, the
count is 0 or still below the number of signals on their way. -/
def Postable (s : State P) : Label P → Prop
  | .post _ _ => s.sem.sem_count + 1 < 4294967296 ∧
      (s.blocked.Nonempty → s.sem.sem_count = 0 ∨ s.sem.sem_count < s.signalled.card)
  | _ => True

instance (s : State P) (a : Label P) : Decidable (Postable s a) := by
  cases a <;> unfold Postable <;> infer_instance

-- ---------------------------------------------------------------------------
-- The invariant
-- ---------------------------------------------------------------------------

/-- What `mysem_post` does to a valid semaphore. -/
theorem mysemPost_valid (h : sem.sem_magic = SEM_MAGIC) :
    mysemPost sem =
      ({ sem with sem_count := (sem.sem_count + 1) % 4294967296 }, sem.sem_count == 0, .done) := by
  rw [mysemPost, if_neg (not_not.mpr h)]

theorem mysemTrywait_valid (h : sem.sem_magic = SEM_MAGIC) :
    mysemTrywait sem =
      if sem.sem_count > 0 then ({ sem with sem_count := sem.sem_count - 1 }, .done)
      else (sem, .eagain) := by
  rw [mysemTrywait, if_neg (not_not.mpr h)]

/-- While a process is blocked, every unit of the count has a signal on its way. -/
structure Inv (value : UInt32) (s : State P) : Prop where
  magic : s.sem.sem_magic = SEM_MAGIC
  accounted : s.Accounted value
  covered : s.blocked.Nonempty → s.sem.sem_count ≤ s.signalled.card

variable {value : UInt32} {s s' : State P} {p : P}

omit [DecidableEq P] in
theorem Inv.not_forgotten (h : Inv value s) : ¬ s.Forgotten := by
  rintro ⟨hpos, hblocked, hnone⟩
  have hle := h.covered hblocked
  rw [hnone, Finset.card_empty] at hle
  exact absurd hpos (Nat.not_lt.mpr hle)

/-- The loop of `mysem_wait` either takes a unit or blocks at 0. -/
theorem waitLoop_cases (s : State P) (p : P) :
    (s.sem.sem_count = 0 ∧ s.waitLoop p = { s with blocked := insert p s.blocked }) ∨
      (0 < s.sem.sem_count ∧ s.waitLoop p =
        { s with
          sem := { s.sem with sem_count := s.sem.sem_count - 1 }
          taken := s.taken + 1 }) := by
  unfold State.waitLoop mysemWaitLoop
  by_cases h : s.sem.sem_count = 0
  · exact .inl ⟨h, by rw [if_pos h]⟩
  · exact .inr ⟨Nat.pos_of_ne_zero h, by rw [if_neg h]⟩

/-- The loop asks one unit less of the signals on their way, as the process that
runs it may have been the target of one. -/
theorem Inv.waitLoop (hmagic : s.sem.sem_magic = SEM_MAGIC) (hacc : s.Accounted value)
    (hcov : s.blocked.Nonempty → s.sem.sem_count ≤ s.signalled.card + 1) (p : P) :
    Inv value (s.waitLoop p) := by
  rcases waitLoop_cases s p with ⟨hzero, heq⟩ | ⟨hpos, heq⟩
  · rw [heq]
    refine ⟨hmagic, hacc, fun _ => ?_⟩
    show s.sem.sem_count ≤ s.signalled.card
    rw [hzero]
    exact Nat.zero_le _
  · rw [heq]
    refine ⟨hmagic, ?_, fun hb => ?_⟩
    · unfold State.Accounted at hacc ⊢
      show ((s.sem.sem_count - 1 : Nat) : Int) = value.toNat + s.posts - (s.taken + 1 : Nat)
      omega
    · exact Nat.sub_le_of_le_add (hcov hb)

theorem Inv.wait (h : Inv value s) (p : P) : Inv value (s.waitLoop p) :=
  Inv.waitLoop h.magic h.accounted (fun hb => Nat.le_succ_of_le (h.covered hb)) p

theorem Inv.resume (h : Inv value s) (hp : p ∈ s.signalled) :
    Inv value ({ s with signalled := s.signalled.erase p }.waitLoop p) := by
  refine Inv.waitLoop (s := { s with signalled := s.signalled.erase p }) h.magic h.accounted
    (fun hb => ?_) p
  show s.sem.sem_count ≤ (s.signalled.erase p).card + 1
  rw [Finset.card_erase_add_one hp]
  exact h.covered hb

theorem Inv.spurious (h : Inv value s) (p : P) :
    Inv value ({ s with blocked := s.blocked.erase p }.waitLoop p) := by
  refine Inv.waitLoop (s := { s with blocked := s.blocked.erase p }) h.magic h.accounted
    (fun hb => Nat.le_succ_of_le (h.covered ?_)) p
  exact hb.mono (Finset.erase_subset _ _)

/-- A post at 0 signals: one of the blocked processes covers the new unit. -/
theorem Inv.postSignal (h : Inv value s) (hzero : s.sem.sem_count = 0) (hw : s.Wakes woken) :
    Inv value { s with
      sem := { s.sem with sem_count := s.sem.sem_count + 1 }
      blocked := s.blocked \ woken
      signalled := s.signalled ∪ woken
      posts := s.posts + 1 } := by
  refine ⟨h.magic, ?_, fun hb => ?_⟩
  · have hacc := h.accounted
    unfold State.Accounted at hacc ⊢
    show ((s.sem.sem_count + 1 : Nat) : Int) = value.toNat + (s.posts + 1 : Nat) - s.taken
    omega
  · have hwoken : woken.Nonempty := hw.2 (hb.mono Finset.sdiff_subset)
    show s.sem.sem_count + 1 ≤ (s.signalled ∪ woken).card
    rw [hzero]
    exact Finset.card_pos.mpr (hwoken.mono Finset.subset_union_right)

omit [DecidableEq P] in
/-- A post above 0 does not signal. -/
theorem Inv.postQuiet (h : Inv value s)
    (hroom : s.blocked.Nonempty → s.sem.sem_count < s.signalled.card) :
    Inv value { s with
      sem := { s.sem with sem_count := s.sem.sem_count + 1 }
      posts := s.posts + 1 } := by
  refine ⟨h.magic, ?_, fun hb => hroom hb⟩
  have hacc := h.accounted
  unfold State.Accounted at hacc ⊢
  show ((s.sem.sem_count + 1 : Nat) : Int) = value.toNat + (s.posts + 1 : Nat) - s.taken
  omega

theorem Inv.step (h : Inv value s) (ha : Postable s a) (hstep : step s a = some s') :
    Inv value s' := by
  cases a with
  | wait p =>
    simp only [MyPxsemMmap.step, h.magic, ne_eq, not_true_eq_false, if_false,
      Option.ite_none_right_eq_some, Option.some.injEq] at hstep
    obtain ⟨-, rfl⟩ := hstep
    exact h.wait p
  | resume p =>
    simp only [MyPxsemMmap.step, Option.ite_none_right_eq_some, Option.some.injEq] at hstep
    obtain ⟨hp, rfl⟩ := hstep
    exact h.resume hp
  | spurious p =>
    simp only [MyPxsemMmap.step, Option.ite_none_right_eq_some, Option.some.injEq] at hstep
    obtain ⟨-, rfl⟩ := hstep
    exact h.spurious p
  | post p woken =>
    obtain ⟨hmax, hcov⟩ := ha
    simp only [MyPxsemMmap.step, mysemPost_valid h.magic, Nat.mod_eq_of_lt hmax,
      Option.ite_none_right_eq_some] at hstep
    obtain ⟨-, hstep⟩ := hstep
    by_cases hzero : s.sem.sem_count = 0
    · have hsignal : (s.sem.sem_count == 0) = true := beq_iff_eq.mpr hzero
      simp only [hsignal, Option.ite_none_right_eq_some, Option.some.injEq] at hstep
      obtain ⟨hw, rfl⟩ := hstep
      exact h.postSignal hzero hw
    · have hquiet : (s.sem.sem_count == 0) = false := beq_eq_false_iff_ne.mpr hzero
      simp only [hquiet, Option.some.injEq] at hstep
      subst hstep
      exact h.postQuiet fun hb => (hcov hb).resolve_left hzero
  | trywait p =>
    simp only [MyPxsemMmap.step, mysemTrywait_valid h.magic,
      Option.ite_none_right_eq_some] at hstep
    obtain ⟨-, hstep⟩ := hstep
    by_cases hpos : s.sem.sem_count > 0
    · simp only [if_pos hpos, Option.some.injEq] at hstep
      subst hstep
      -- The same step as a wait that finds a unit.
      rcases waitLoop_cases s p with ⟨hzero, -⟩ | ⟨-, heq⟩
      · exact absurd hzero (Nat.ne_of_gt hpos)
      · have hwait := h.wait p
        rwa [heq] at hwait
    · simp only [if_neg hpos, Option.some.injEq] at hstep
      exact hstep ▸ h

/-- The invariant of the runs whose posts are `Postable`. -/
theorem reachable_inv (h : (system P value).Reachable Postable s) : Inv value s := by
  refine h.invariant ?_ fun s a s' hs ha hstep => hs.step ha hstep
  refine ⟨rfl, ?_, fun hb => ?_⟩
  · simp [system, State.Accounted]
  · cases Finset.not_nonempty_empty hb

-- ---------------------------------------------------------------------------
-- Runs
-- ---------------------------------------------------------------------------

/-- More units than signals on their way: once the signalled processes have
resumed, the rest sleep on at a positive count. -/
theorem forgotten_of_signalled_lt (hblocked : s.blocked.Nonempty)
    (hlt : s.signalled.card < s.sem.sem_count) :
    ∃ as t, (system P value).exec s as = some t ∧ t.Forgotten := by
  induction hn : s.signalled.card generalizing s with
  | zero =>
    have hnone : s.signalled = ∅ := Finset.card_eq_zero.mp hn
    exact ⟨[], s, rfl, Nat.pos_of_ne_zero (by omega), hblocked, hnone⟩
  | succ n ih =>
    obtain ⟨p, hp⟩ : s.signalled.Nonempty := Finset.card_pos.mp (by omega)
    have hcard : (s.signalled.erase p).card = n := by rw [Finset.card_erase_of_mem hp, hn]; rfl
    let s₁ : State P := { s with signalled := s.signalled.erase p }
    rcases waitLoop_cases s₁ p with ⟨hzero, -⟩ | ⟨-, heq⟩
    · exact absurd hzero (Nat.ne_of_gt (Nat.lt_of_le_of_lt (Nat.zero_le _) hlt))
    · obtain ⟨as, t, hrun, ht⟩ := ih (s := s₁.waitLoop p) (by rw [heq]; exact hblocked)
        (by rw [heq]; show (s.signalled.erase p).card < s.sem.sem_count - 1; omega)
        (by rw [heq]; exact hcard)
      refine ⟨.resume p :: as, t, ?_, ht⟩
      have hstep : step s (.resume p) = some (s₁.waitLoop p) := if_pos hp
      rw [Lts.exec, show (system P value).step = step from rfl, hstep, Option.bind_some]
      exact hrun

/-- A post that is not `Postable` breaks the count or leads to a forgotten process. -/
theorem forgotten_of_not_postable (h : Inv value s) (ha : ¬ Postable s a)
    (hstep : step s a = some s') :
    ¬ s'.Accounted value ∨ ∃ as t, (system P value).exec s' as = some t ∧ t.Forgotten := by
  cases a with
  | post p woken =>
    -- Either way the count is above 0, so no signal is sent.
    have hne : s.sem.sem_count ≠ 0 := by
      rintro hzero
      exact ha ⟨by omega, fun _ => .inl hzero⟩
    have hquiet : (s.sem.sem_count == 0) = false := beq_eq_false_iff_ne.mpr hne
    simp only [step, mysemPost_valid h.magic, hquiet, Option.ite_none_right_eq_some,
      Option.some.injEq] at hstep
    obtain ⟨-, rfl⟩ := hstep
    by_cases hmax : s.sem.sem_count + 1 < 4294967296
    · right
      obtain ⟨hblocked, -, hle⟩ : s.blocked.Nonempty ∧ s.sem.sem_count ≠ 0 ∧
          s.signalled.card ≤ s.sem.sem_count := by
        unfold Postable at ha
        push Not at ha
        exact ha hmax
      refine forgotten_of_signalled_lt hblocked ?_
      show s.signalled.card < (s.sem.sem_count + 1) % 4294967296
      rw [Nat.mod_eq_of_lt hmax]
      exact Nat.lt_succ_of_le hle
    · left
      have hacc := h.accounted
      unfold State.Accounted at hacc ⊢
      show ¬ (((s.sem.sem_count + 1) % 4294967296 : Nat) : Int) =
        value.toNat + (s.posts + 1 : Nat) - s.taken
      omega
  | wait p => exact absurd trivial ha
  | resume p => exact absurd trivial ha
  | spurious p => exact absurd trivial ha
  | trywait p => exact absurd trivial ha

/-- In the runs whose posts are `Postable` the count is right and no blocked
process is forgotten; any other post breaks the count or leads to a state where
one is. -/
theorem semaphore_correct_iff (value : UInt32) :
    (∀ s : State P, (system P value).Reachable Postable s →
      s.Accounted value ∧ (0 : Int) ≤ s.sem.sem_count ∧ ¬ s.Forgotten) ∧
    ∀ (s : State P) a s', (system P value).Reachable Postable s → ¬ Postable s a →
      step s a = some s' →
      ¬ s'.Accounted value ∨ ∃ as t, (system P value).exec s' as = some t ∧ t.Forgotten :=
  ⟨fun _ h => ⟨(reachable_inv h).accounted, Int.natCast_nonneg _, (reachable_inv h).not_forgotten⟩,
    fun _ _ _ h => forgotten_of_not_postable (reachable_inv h)⟩

theorem semaphore_correct_iff_three :
    (∀ s : State (Fin 3), (system (Fin 3) 0).Reachable Postable s →
      s.Accounted 0 ∧ (0 : Int) ≤ s.sem.sem_count ∧ ¬ s.Forgotten) ∧
    ∀ (s : State (Fin 3)) a s', (system (Fin 3) 0).Reachable Postable s → ¬ Postable s a →
      step s a = some s' →
      ¬ s'.Accounted 0 ∨ ∃ as t, (system (Fin 3) 0).exec s' as = some t ∧ t.Forgotten :=
  semaphore_correct_iff 0

instance (s : State P) : Decidable s.Forgotten := by unfold State.Forgotten; infer_instance

/-- Two processes wait; two posts, the second before the process the first one
picked has run. -/
theorem second_post_forgets :
    ¬ ∀ s : State (Fin 3), (system (Fin 3) 0).Reachable anyStep s →
      s.Accounted 0 ∧ (0 : Int) ≤ s.sem.sem_count ∧ ¬ s.Forgotten := by
  intro h
  obtain ⟨s, hs, hforgotten⟩ := reachable_of_exec (system (Fin 3) 0)
    [.wait 0, .wait 1, .post 2 {0}, .post 2 ∅, .resume 0] (fun s => decide s.Forgotten)
    (by decide +kernel)
  exact (h s hs).2.2 (of_decide_eq_true hforgotten)

end DdsAuto.MyPxsemMmap
