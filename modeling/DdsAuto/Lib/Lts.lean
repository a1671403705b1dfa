import Mathlib.Logic.Function.Basic

/-!
# Labelled transition systems

A system is an initial state and a partial step for each label; a label names
the party that moves and what the environment chose for it. `Reachable ok`
restricts runs to steps that meet a condition on the state before the step, so
a property that fails in some runs can be stated for exactly the others.
-/

namespace DdsAuto

structure Lts (σ κ : Type) where
  init : σ
  step : σ → κ → Option σ

namespace Lts

variable {σ κ : Type}

/-- The state after the labels, if every one of them could step. -/
def exec (L : Lts σ κ) : σ → List κ → Option σ
  | s, [] => some s
  | s, a :: as => (L.step s a).bind fun s' => L.exec s' as

/-- The state after the labels, if every one of them could step and passed the check. -/
def execIf (L : Lts σ κ) (check : σ → κ → Bool) : σ → List κ → Option σ
  | s, [] => some s
  | s, a :: as =>
    if check s a then (L.step s a).bind fun s' => L.execIf check s' as else none

/-- Reachable by steps that all meet `ok`. -/
inductive Reachable (L : Lts σ κ) (ok : σ → κ → Prop) : σ → Prop
  | init : Reachable L ok L.init
  | step {s s' : σ} {a : κ} : Reachable L ok s → ok s a → L.step s a = some s' →
      Reachable L ok s'

/-- No condition on the steps. -/
def anyStep (_ : σ) (_ : κ) : Prop := True

variable {L : Lts σ κ} {ok ok' : σ → κ → Prop} {s s' : σ} {P Q : σ → Prop}

theorem Reachable.mono (hok : ∀ s a, ok s a → ok' s a) (h : L.Reachable ok s) :
    L.Reachable ok' s := by
  induction h with
  | init => exact .init
  | step _ ha hstep ih => exact .step ih (hok _ _ ha) hstep

theorem Reachable.any (h : L.Reachable ok s) : L.Reachable anyStep s :=
  h.mono fun _ _ _ => trivial

/-- The rule of invariants: what holds at first and survives each step. -/
theorem Reachable.invariant (h : L.Reachable ok s) (hinit : P L.init)
    (hstep : ∀ s a s', P s → ok s a → L.step s a = some s' → P s') : P s := by
  induction h with
  | init => exact hinit
  | step _ ha hs ih => exact hstep _ _ _ ih ha hs

theorem exec_append {t u : σ} (h : L.exec s as = some t) (h' : L.exec t bs = some u) :
    L.exec s (as ++ bs) = some u := by
  induction as generalizing s with
  | nil =>
    cases h
    exact h'
  | cons a as ih =>
    simp only [Lts.exec, List.cons_append, Option.bind_eq_some_iff] at h ⊢
    obtain ⟨v, hstep, hrest⟩ := h
    exact ⟨v, hstep, ih hrest⟩

theorem Reachable.exec (h : L.Reachable anyStep s) (hrun : L.exec s as = some s') :
    L.Reachable anyStep s' := by
  induction as generalizing s with
  | nil =>
    cases hrun
    exact h
  | cons a as ih =>
    cases hs : L.step s a with
    | none => simp [Lts.exec, hs] at hrun
    | some t => exact ih (h.step trivial hs) (by simpa [Lts.exec, hs] using hrun)

theorem Reachable.execIf {check : σ → κ → Bool} (hcheck : ∀ s a, check s a = true → ok s a)
    (h : L.Reachable ok s) (hrun : L.execIf check s as = some s') : L.Reachable ok s' := by
  induction as generalizing s with
  | nil =>
    cases hrun
    exact h
  | cons a as ih =>
    simp only [Lts.execIf, Option.ite_none_right_eq_some, Option.bind_eq_some_iff] at hrun
    obtain ⟨hok, t, hstep, hrest⟩ := hrun
    exact ih (h.step (hcheck _ _ hok) hstep) hrest

/-- The same for a run whose steps pass a check that implies `ok`. -/
theorem reachable_of_execIf (L : Lts σ κ) (check : σ → κ → Bool)
    (hcheck : ∀ s a, check s a = true → ok s a) (as : List κ) (p : σ → Bool)
    (h : (L.execIf check L.init as).any p = true) : ∃ s, L.Reachable ok s ∧ p s = true := by
  cases hrun : L.execIf check L.init as with
  | none => simp [hrun] at h
  | some s => exact ⟨s, Reachable.init.execIf hcheck hrun, by simpa [hrun] using h⟩

/-- A run shows its last state to be reachable; `p` is what is read off it. -/
theorem reachable_of_exec (L : Lts σ κ) (as : List κ) (p : σ → Bool)
    (h : (L.exec L.init as).any p = true) : ∃ s, L.Reachable anyStep s ∧ p s = true := by
  cases hrun : L.exec L.init as with
  | none => simp [hrun] at h
  | some s => exact ⟨s, Reachable.init.exec hrun, by simpa [hrun] using h⟩

/-- Where a step spoils the state exactly if it does not pass a check, and nothing
mends it, a run spoils it exactly if not all of its steps pass. -/
theorem exec_iff_execIf {check : σ → κ → Bool}
    (hstep : ∀ s a s', P s → L.step s a = some s' → P s' ∧ (Q s' ↔ Q s ∨ check s a = false))
    (hs : P s) (hrun : L.exec s as = some s') :
    P s' ∧ (Q s' ↔ Q s ∨ L.execIf check s as ≠ some s') := by
  induction as generalizing s with
  | nil =>
    cases hrun
    exact ⟨hs, by simp [Lts.execIf]⟩
  | cons a as ih =>
    simp only [Lts.exec, Option.bind_eq_some_iff] at hrun
    obtain ⟨t, ha, hrest⟩ := hrun
    obtain ⟨ht, hone⟩ := hstep s a t hs ha
    obtain ⟨hs', hall⟩ := ih ht hrest
    refine ⟨hs', ?_⟩
    rw [hall, hone]
    cases hk : check s a with
    | false => simp [Lts.execIf, hk]
    | true => simp [Lts.execIf, hk, ha]

-- ---------------------------------------------------------------------------
-- Runs that end
-- ---------------------------------------------------------------------------

variable {μ : σ → Nat}

/-- A measure that every step lowers bounds the length of every run. -/
theorem length_le_of_measure (hdec : ∀ s a s', P s → L.step s a = some s' → μ s' < μ s)
    (hpres : ∀ s a s', P s → L.step s a = some s' → P s') (hs : P s)
    (hrun : L.exec s as = some s') : as.length + μ s' ≤ μ s := by
  induction as generalizing s with
  | nil =>
    cases hrun
    simp
  | cons a as ih =>
    simp only [Lts.exec, Option.bind_eq_some_iff] at hrun
    obtain ⟨t, hstep, hrest⟩ := hrun
    have hlt := hdec _ _ _ hs hstep
    have hle := ih (hpres _ _ _ hs hstep) hrest
    rw [List.length_cons]
    omega

/-- The credit of all labels of a run. -/
def credits (credit : κ → Nat) : List κ → Nat
  | [] => 0
  | a :: as => credit a + credits credit as

theorem credits_add (credit credit' : κ → Nat) (as : List κ) :
    credits (fun a => credit a + credit' a) as = credits credit as + credits credit' as := by
  induction as with
  | nil => rfl
  | cons a as ih =>
    rw [credits, ih, credits, credits]
    omega

/-- The labels with `p` give `n` each and the others nothing. -/
theorem credits_of_ite {credit : κ → Nat} {p : κ → Bool} {n : Nat}
    (h : ∀ a, credit a = if p a then n else 0) (as : List κ) :
    credits credit as = n * as.countP p := by
  induction as with
  | nil => rfl
  | cons a as ih =>
    rw [credits, ih, List.countP_cons, h a]
    split
    · rw [Nat.mul_add, Nat.mul_one, Nat.add_comm]
    · rw [Nat.zero_add, Nat.add_zero]

/-- Where some labels give credit, a run takes no more steps than it began with
and got credit for. -/
theorem length_le_of_credit (credit : κ → Nat)
    (hdec : ∀ s a s', P s → L.step s a = some s' → μ s' < μ s + credit a)
    (hpres : ∀ s a s', P s → L.step s a = some s' → P s') (hs : P s)
    (hrun : L.exec s as = some s') : as.length + μ s' ≤ μ s + credits credit as := by
  induction as generalizing s with
  | nil =>
    cases hrun
    simp
  | cons a as ih =>
    simp only [Lts.exec, Option.bind_eq_some_iff] at hrun
    obtain ⟨t, hstep, hrest⟩ := hrun
    have hlt := hdec _ _ _ hs hstep
    have hle := ih (hpres _ _ _ hs hstep) hrest
    rw [List.length_cons, credits]
    omega

/-- The same from below: where each step gains something, but for the credit of its label, a
long run has gained much. -/
theorem length_le_of_gain (credit : κ → Nat)
    (hinc : ∀ s a s', P s → L.step s a = some s' → μ s < μ s' + credit a)
    (hpres : ∀ s a s', P s → L.step s a = some s' → P s') (hs : P s)
    (hrun : L.exec s as = some s') : as.length + μ s ≤ μ s' + credits credit as := by
  induction as generalizing s with
  | nil =>
    cases hrun
    simp
  | cons a as ih =>
    simp only [Lts.exec, Option.bind_eq_some_iff] at hrun
    obtain ⟨t, hstep, hrest⟩ := hrun
    have hlt := hinc _ _ _ hs hstep
    have hle := ih (hpres _ _ _ hs hstep) hrest
    rw [List.length_cons, credits]
    omega

/-- Where a measure falls and no state but a final one is stuck, every state
has a run to a final one. -/
theorem exists_exec_of_measure (hdec : ∀ s a s', P s → L.step s a = some s' → μ s' < μ s)
    (hpres : ∀ s a s', P s → L.step s a = some s' → P s')
    (hmove : ∀ s, P s → ¬ Q s → ∃ a s', L.step s a = some s') (hs : P s) :
    ∃ as s', L.exec s as = some s' ∧ Q s' := by
  induction hn : μ s using Nat.strongRecOn generalizing s with
  | ind n ih =>
    by_cases hq : Q s
    · exact ⟨[], s, rfl, hq⟩
    · obtain ⟨a, t, hstep⟩ := hmove s hs hq
      obtain ⟨as, u, hrun, hu⟩ := ih (μ t) (hn ▸ hdec s a t hs hstep) (hpres s a t hs hstep) rfl
      exact ⟨a :: as, u, by rw [Lts.exec, hstep, Option.bind_some, hrun], hu⟩

/-- A schedule `ok` that only stops in final states shows one to be reachable. -/
theorem exists_reachable_of_measure (ok : σ → κ → Prop)
    (hdec : ∀ s a s', P s → L.step s a = some s' → μ s' < μ s)
    (hpres : ∀ s a s', P s → ok s a → L.step s a = some s' → P s')
    (hmove : ∀ s, P s → ¬ Q s → ∃ a s', ok s a ∧ L.step s a = some s')
    (hreach : L.Reachable anyStep s) (hs : P s) : ∃ s', L.Reachable anyStep s' ∧ P s' ∧ Q s' := by
  induction hn : μ s using Nat.strongRecOn generalizing s with
  | ind n ih =>
    by_cases hq : Q s
    · exact ⟨s, hreach, hs, hq⟩
    · obtain ⟨a, t, hok, hstep⟩ := hmove s hs hq
      exact ih (μ t) (hn ▸ hdec s a t hs hstep) (hreach.step trivial hstep) (hpres s a t hs hok hstep) rfl

end Lts

end DdsAuto
