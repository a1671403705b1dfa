import DdsAuto.Concurrent.Swap
import DdsAuto.Lib.LockOrder
import Mathlib.Order.WellFounded
import Mathlib.Data.Fintype.Order

/-!
# When the swaps get stuck

Only `danger_swap` waits with a mutex in hand, so that threads wait for each other
only in a circle of its second guards, and such a circle stays. Where the calls of
`danger_swap` go up some order of the managers there is none.
-/

namespace DdsAuto.Concurrent.Swap

open Function Lts Relation

variable {T O : Type} [DecidableEq T] [DecidableEq O] {s s' : State T O} {t u v : T} {c : Call O}
variable {m : O} {first : Bool} {obj : O → Int} {calls : T → List (Call O)}

/-- The second guard of one waits for the first of the other. -/
def Waits (s : State T O) (t u : T) : Prop :=
  ∃ c c', (s.thread t).pc = .lock2 c ∧ (s.thread u).pc = .lock2 c' ∧ c.objm2 = c'.objm1

def Finished (s : State T O) (t : T) : Prop := s.thread t = ⟨.idle, []⟩

def Stuck (s : State T O) : Prop := ∀ t first, step s t first = none

-- ---------------------------------------------------------------------------
-- A state in which nobody moves
-- ---------------------------------------------------------------------------

/-- A thread that cannot move, whatever `std::lock` begins with. -/
theorem blocked_cases (h : ∀ first, step s t first = none) : Finished s t ∨
    (∃ c, (s.thread t).pc = .lock2 c ∧ s.owner c.objm2 ≠ none) ∨
    ((s.thread t).pc.held = [] ∧ ∃ m, s.owner m ≠ none) := by
  cases hpc : (s.thread t).pc <;> simp only [step, hpc] at h
  case idle =>
    cases hcalls : (s.thread t).calls with
    | nil =>
      refine .inl ?_
      rw [Finished]
      cases hthread : s.thread t
      rw [hthread] at hpc hcalls
      simp only at hpc hcalls
      rw [hpc, hcalls]
    | cons c calls => simp [hcalls] at h
  case lock1 c => exact .inr (.inr ⟨rfl, c.objm1, fun hfree => by simp [hfree] at h⟩)
  case lock2 c => exact .inr (.inl ⟨c, rfl, fun hfree => by simp [hfree] at h⟩)
  case lock c =>
    refine .inr (.inr ⟨rfl, c.objm1, fun hfree => ?_⟩)
    have hfirst := h true
    simp [Call.mutex, hfree] at hfirst
  case tryLock c b =>
    have hfirst := h true
    split at hfirst <;> cases hfirst
  case unlock held =>
    have hfirst := h true
    split at hfirst <;> cases hfirst
  all_goals cases h true

/-- Whoever has a mutex waits for its second one. -/
theorem holder_waits (hs : Held s) (hstuck : Stuck s) (hm : s.owner m = some u) :
    ∃ c, (s.thread u).pc = .lock2 c ∧ c.objm1 = m := by
  have hin := (hs.owner u m).mp hm
  rcases blocked_cases (hstuck u) with hfin | ⟨c, hpc, -⟩ | ⟨hnone, -⟩
  · rw [Finished] at hfin
    rw [hfin] at hin
    exact absurd hin List.not_mem_nil
  · rw [hpc, Pc.held, List.mem_singleton] at hin
    exact ⟨c, hpc, hin.symm⟩
  · rw [hnone] at hin
    exact absurd hin List.not_mem_nil

theorem exists_waits (hs : Held s) (hstuck : Stuck s) (hpc : (s.thread t).pc = .lock2 c) :
    ∃ u, Waits s t u := by
  rcases blocked_cases (hstuck t) with hfin | ⟨c', hpc', hown⟩ | ⟨hnone, -⟩
  · rw [Finished] at hfin
    rw [hfin] at hpc
    cases hpc
  · rw [hpc] at hpc'
    cases hpc'
    obtain ⟨u, hu⟩ := Option.ne_none_iff_exists'.mp hown
    obtain ⟨c', hc', heq⟩ := holder_waits hs hstuck hu
    exact ⟨u, c, c', hpc, hc', heq.symm⟩
  · rw [hpc] at hnone
    cases hnone

theorem exists_lock2 (hs : Held s) (hstuck : Stuck s) (ht : ¬ Finished s t) :
    ∃ u c, (s.thread u).pc = .lock2 c := by
  rcases blocked_cases (hstuck t) with hfin | ⟨c, hpc, -⟩ | ⟨-, m, hown⟩
  · exact absurd hfin ht
  · exact ⟨t, c, hpc⟩
  · obtain ⟨u, hu⟩ := Option.ne_none_iff_exists'.mp hown
    obtain ⟨c, hc, -⟩ := holder_waits hs hstuck hu
    exact ⟨u, c, hc⟩

/-- Waiting never comes to an end, so that among finitely many threads it comes back. -/
theorem circle_of_stuck [Finite T] (hs : Held s) (hstuck : Stuck s) (ht : ¬ Finished s t) :
    ∃ u, TransGen (Waits s) u u := by
  by_contra hnone
  have hirrefl : ∀ u, ¬ TransGen (Waits s) u u := not_exists.mp hnone
  let later (u v : T) : Prop := TransGen (Waits s) v u
  have : IsTrans T later := ⟨fun _ _ _ hab hbc => TransGen.trans hbc hab⟩
  have : Std.Irrefl later := ⟨hirrefl⟩
  have hwf : WellFounded later := Finite.wellFounded_of_trans_of_irrefl later
  obtain ⟨u, ⟨c, hc⟩, hmin⟩ := hwf.has_min {u | ∃ c, (s.thread u).pc = .lock2 c}
    (exists_lock2 hs hstuck ht)
  obtain ⟨v, hv⟩ := exists_waits hs hstuck hc
  obtain ⟨-, c', -, hc', -⟩ := id hv
  exact hmin v ⟨c', hc'⟩ (.single hv)

-- ---------------------------------------------------------------------------
-- A circle stays
-- ---------------------------------------------------------------------------

theorem step_other (hstep : step s v first = some s') (ht : t ≠ v) : s'.thread t = s.thread t := by
  cases hpc : (s.thread v).pc <;> simp only [step, hpc] at hstep
  all_goals
    repeat' split at hstep
    all_goals cases hstep
    all_goals simp [State.goto, State.setOwner, ht]

theorem no_step_of_waits (hs : Held s) (h : Waits s v u) : step s v first = none := by
  obtain ⟨c, c', hc, hc', heq⟩ := h
  have hown : s.owner c.objm2 = some u := by
    rw [hs.owner, hc', heq]
    simp [Pc.held]
  simp [step, hc, hown]

theorem waits_step (hs : Held s) (hstep : step s v first = some s') (h : TransGen (Waits s) t u)
    (hu : ∃ w, Waits s u w) : TransGen (Waits s') t u := by
  have hne {t w : T} (hw : Waits s t w) : t ≠ v := by
    rintro rfl
    rw [no_step_of_waits hs hw] at hstep
    cases hstep
  have hkeep {t u : T} (hw : Waits s t u) (hu : ∃ w, Waits s u w) : Waits s' t u := by
    obtain ⟨w, hw'⟩ := hu
    obtain ⟨c, c', hc, hc', heq⟩ := hw
    refine ⟨c, c', ?_, ?_, heq⟩
    · rw [step_other hstep (hne ⟨c, c', hc, hc', heq⟩)]
      exact hc
    · rw [step_other hstep (hne hw')]
      exact hc'
  induction h with
  | single hw => exact .single (hkeep hw hu)
  | tail _ hw ih => exact .tail (ih ⟨_, hw⟩) (hkeep hw hu)

theorem circle_step (hs : Held s) (hstep : step s v first = some s') (h : TransGen (Waits s) t t) :
    TransGen (Waits s') t t ∧ s'.thread t = s.thread t := by
  obtain ⟨w, hw, -⟩ := TransGen.head'_iff.mp h
  refine ⟨waits_step hs hstep h ⟨w, hw⟩, step_other hstep ?_⟩
  rintro rfl
  rw [no_step_of_waits hs hw] at hstep
  cases hstep

theorem circle_exec {as : List (Label T)} (hs : Held s) (h : TransGen (Waits s) t t)
    (hrun : (system obj calls).exec s as = some s') : s'.thread t = s.thread t := by
  induction as generalizing s with
  | nil =>
    cases hrun
    rfl
  | cons a as ih =>
    simp only [Lts.exec, Option.bind_eq_some_iff] at hrun
    obtain ⟨s₁, hstep, hrest⟩ := hrun
    obtain ⟨hcircle, hsame⟩ := circle_step hs hstep h
    rw [ih (held_step hs hstep) hcircle hrest, hsame]

-- ---------------------------------------------------------------------------
-- Calls that go up
-- ---------------------------------------------------------------------------

/-- Only `danger_swap` has a second guard to wait for. -/
def DangerOk (s : State T O) : Prop :=
  ∀ t c, (s.thread t).pc = .lock1 c ∨ (s.thread t).pc = .lock2 c → c.kind = .danger

theorem dangerOk_step (h : DangerOk s) (hstep : step s v first = some s') : DangerOk s' := by
  intro t c hpc
  by_cases ht : t = v
  · subst ht
    cases hold : (s.thread t).pc <;> simp only [step, hold] at hstep
    case idle =>
      split at hstep <;> cases hstep
      simp only [update_self] at hpc
      split at hpc
      · simp at hpc
      · split at hpc
        · rename_i c' _ _ _ hkind
          simp only [Pc.lock1.injEq, reduceCtorEq, or_false] at hpc
          rw [← hpc]
          exact hkind
        · simp at hpc
        · simp at hpc
    case lock1 c' =>
      simp only [Option.ite_none_right_eq_some, Option.some.injEq] at hstep
      obtain ⟨-, rfl⟩ := hstep
      simp only [State.goto, update_self, reduceCtorEq, Pc.lock2.injEq, false_or] at hpc
      rw [← hpc]
      exact h t c' (.inl hold)
    all_goals
      repeat' split at hstep
      all_goals cases hstep
      all_goals simp [State.goto] at hpc
  · rw [step_other hstep ht] at hpc
    exact h t c hpc

theorem dangerOk_of_reachable (h : (system obj calls).Reachable anyStep s) : DangerOk s :=
  h.invariant (P := DangerOk) (fun _ _ hpc => by simp [system] at hpc)
    fun _ _ _ hs _ hstep => dangerOk_step hs hstep

/-- The calls of `danger_swap` take the managers upwards. -/
def Rising (rank : O → Nat) (calls : T → List (Call O)) : Prop :=
  ∀ t, ∀ c ∈ calls t, c.kind = .danger → c.Proper → rank c.objm1 < rank c.objm2

theorem mem_calls_of_lock2 (hs : InOrder obj calls s) (hpc : (s.thread t).pc = .lock2 c) :
    c ∈ calls t ∧ c.Proper := by
  have hmem : c ∈ (calls t).filter fun c => c.Proper := by
    rw [← hs.order t, hpc]
    simp [Pc.pending]
  simpa using hmem

theorem no_circle_of_rising {rank : O → Nat} (hs : InOrder obj calls s) (hd : DangerOk s)
    (hrise : Rising rank calls) (t : T) : ¬ TransGen (Waits s) t t := by
  intro h
  let low (t : T) : Nat :=
    match (s.thread t).pc with
    | .lock2 c => rank c.objm1
    | _ => 0
  refine LockOrder.not_cyclic (fun t u hwaits _ => show low u < low t from ?_) t
    (transGen_swap.mpr h)
  obtain ⟨c, c', hc, hc', heq⟩ := hwaits
  obtain ⟨hmem, hproper⟩ := mem_calls_of_lock2 hs hc
  have hlt := hrise u c hmem (hd u c (.inr hc)) hproper
  simp only [low, hc, hc']
  rwa [heq] at hlt

/-- From its first call on, a thread takes the first mutex if that is free. -/
theorem exists_lock2_of_free (hs : (system obj calls).Reachable anyStep s) {rest : List (Call O)}
    (hidle : s.thread t = ⟨.idle, c :: rest⟩) (hkind : c.kind = .danger) (hproper : c.Proper)
    (hfree : s.owner c.objm1 = none) : ∃ s', (system obj calls).Reachable anyStep s' ∧
      (s'.thread t).pc = .lock2 c ∧ (∀ v, v ≠ t → s'.thread v = s.thread v) ∧
      s'.owner = update s.owner c.objm1 (some t) := by
  have hne : ¬ c.objm1 = c.objm2 := hproper
  let s₁ : State T O := { s with thread := update s.thread t ⟨.lock1 c, rest⟩ }
  have hfirst : (system obj calls).step s ⟨t, true⟩ = some s₁ := by
    simp [system, step, hidle, hkind, hne, s₁]
  have hsecond : (system obj calls).step s₁ ⟨t, true⟩ =
      some ((s₁.setOwner c.objm1 (some t)).goto t (.lock2 c)) := by
    simp [system, step, hfree, s₁]
  refine ⟨_, (hs.step trivial hfirst).step trivial hsecond, ?_, fun v hv => ?_, rfl⟩
  · simp [State.goto]
  · simp [State.goto, State.setOwner, hv, s₁]

/-- The swaps can get stuck only in a circle of threads at the second guards of
`danger_swap`; a circle stays for ever; calls that go up an order of the managers, and so
all calls of `safe_swap` and `safe_swap_scope`, make none; and two threads that begin with
`danger_swap` both ways can come into one. -/
theorem swaps_stuck_in_circle [Finite T] (obj : O → Int) (calls : T → List (Call O)) :
    (∀ s, (system obj calls).Reachable anyStep s → Stuck s → (∃ t, ¬ Finished s t) →
      ∃ t, TransGen (Waits s) t t) ∧
    (∀ s, (system obj calls).Reachable anyStep s → ∀ t, TransGen (Waits s) t t →
      ∀ as s', (system obj calls).exec s as = some s' → s'.thread t = s.thread t) ∧
    (∀ rank, Rising rank calls → ∀ s, (system obj calls).Reachable anyStep s → Stuck s →
      ∀ t, Finished s t) ∧
    ∀ t u a b rest rest', t ≠ u → a ≠ b → calls t = ⟨.danger, a, b⟩ :: rest →
      calls u = ⟨.danger, b, a⟩ :: rest' →
      ∃ s, (system obj calls).Reachable anyStep s ∧ TransGen (Waits s) t t := by
  refine ⟨fun s h hstuck ⟨t, ht⟩ => circle_of_stuck (inOrder_of_reachable h).held hstuck ht,
    fun s h t hcircle as s' hrun => circle_exec (inOrder_of_reachable h).held hcircle hrun,
    fun rank hrise s h hstuck t => ?_, ?_⟩
  · have hs := inOrder_of_reachable h
    by_contra ht
    obtain ⟨u, hu⟩ := circle_of_stuck hs.held hstuck ht
    exact no_circle_of_rising hs (dangerOk_of_reachable h) hrise u hu
  · intro t u a b rest rest' htu hab ht hu
    have hidle : ((system obj calls).init.thread t) = ⟨.idle, ⟨.danger, a, b⟩ :: rest⟩ := by
      simp [system, ht]
    obtain ⟨s₁, h₁, hpc₁, hother₁, hown₁⟩ := exists_lock2_of_free .init hidle rfl hab rfl
    have hidle' : s₁.thread u = ⟨.idle, ⟨.danger, b, a⟩ :: rest'⟩ := by
      rw [hother₁ u htu.symm]
      simp [system, hu]
    have hfree : s₁.owner b = none := by
      rw [hown₁, update_of_ne hab.symm]
      rfl
    obtain ⟨s₂, h₂, hpc₂, hother₂, -⟩ := exists_lock2_of_free h₁ hidle' rfl hab.symm hfree
    have hpc : (s₂.thread t).pc = .lock2 ⟨.danger, a, b⟩ := by rw [hother₂ t htu, hpc₁]
    exact ⟨s₂, h₂, .tail (.single ⟨_, _, hpc, hpc₂, rfl⟩) ⟨_, _, hpc₂, hpc, rfl⟩⟩

/-- The two threads of `test_danger_swap`. -/
theorem swaps_stuck_in_circle_two : ∃ s, (system (T := Bool) (fun o : Bool => if o then 5 else 100)
    fun t => [⟨.danger, t, !t⟩]).Reachable anyStep s ∧ TransGen (Waits s) true true :=
  (swaps_stuck_in_circle (fun o => if o then 5 else 100) fun t => [⟨.danger, t, !t⟩]).2.2.2
    true false true false [] [] (by decide) (by decide) rfl rfl

end DdsAuto.Concurrent.Swap
