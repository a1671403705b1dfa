import DdsAuto.Lib.History
import DdsAuto.Lib.Lts
import DdsAuto.Lib.Mutex

/-!
# `threadsafe_stack`

Any number of threads call `push` and the two overloads of `pop`; a statement
under the mutex is a step. Both overloads copy the top, but the one that returns
a `shared_ptr` ends with `data.top()` where the other ends with `data.pop()`,
so the value it returns stays on the stack. `lifo_iff`: a run is that of a stack
exactly when no call gets to that statement.
-/

namespace DdsAuto.Concurrent.ThreadsafeStack

open Lts Function Mutex History

/-- `shared_ptr<T> pop()` and `void pop(T& value)`. -/
inductive Overload
  | shared
  | value
  deriving DecidableEq, Repr

/-- Where a thread is: before the statement named, with what the call has copied.
`unlock` ends a call that returns and one that throws `empty_stack`. -/
inductive Point (T : Type)
  | idle
  | lockPush (new_value : T)
  | lockPop (op : Overload)
  | push (new_value : T)
  | test (op : Overload)
  | copy (op : Overload)
  | last (op : Overload) (res : T)
  | unlock
  deriving DecidableEq, Repr

/-- `data` has the top first; `history` records each call at the statement that
settles what it does. -/
structure State (τ T : Type) where
  data : List T
  owner : Option τ
  points : τ → Point T
  history : List (Event Overload T)

inductive Label (τ T : Type)
  | push (t : τ) (new_value : T)
  | pop (t : τ) (op : Overload)
  | run (t : τ)
  deriving DecidableEq

/-- `data.top()` or `data.pop()`. -/
def Overload.lastStatement {T : Type} (data : List T) : Overload → List T
  | .shared => data
  | .value => data.tail

variable {τ T : Type} [DecidableEq τ]

def State.goto (s : State τ T) (t : τ) (p : Point T) : State τ T :=
  { s with points := update s.points t p }

/-- A call's next step. `top` of an empty stack has no result. -/
def run (s : State τ T) (t : τ) : Option (State τ T) :=
  match s.points t with
  | .idle => none
  | .lockPush new_value =>
    if s.owner = none then some { s.goto t (.push new_value) with owner := some t } else none
  | .lockPop op => if s.owner = none then some { s.goto t (.test op) with owner := some t } else none
  | .push new_value =>
    some { s.goto t .unlock with
      data := new_value :: s.data
      history := s.history ++ [.pushed new_value] }
  | .test op =>
    if s.data.isEmpty then some { s.goto t .unlock with history := s.history ++ [.empty op] }
    else some (s.goto t (.copy op))
  | .copy op => s.data.head?.map fun res => s.goto t (.last op res)
  | .last op res =>
    some { s.goto t .unlock with
      data := op.lastStatement s.data
      history := s.history ++ [.popped op res] }
  | .unlock => some { s.goto t .idle with owner := none }

/-- A thread makes a call when it is in none. -/
def call (s : State τ T) (t : τ) (p : Point T) : Option (State τ T) :=
  match s.points t with
  | .idle => some (s.goto t p)
  | _ => none

def step (s : State τ T) : Label τ T → Option (State τ T)
  | .push t new_value => call s t (.lockPush new_value)
  | .pop t op => call s t (.lockPop op)
  | .run t => run s t

def system (τ T : Type) [DecidableEq τ] : Lts (State τ T) (Label τ T) where
  init := ⟨[], none, fun _ => .idle, []⟩
  step := step

/-- The history is that of a stack and `data` what remains on it; `empty_stack`
is thrown where everything pushed has been removed, and nowhere else. -/
structure Correct (s : State τ T) : Prop where
  lifo : Lifo s.history s.data
  accounts : (pops s.history ++ s.data).Perm (pushes s.history)
  once : (pushes s.history).Nodup → (pops s.history).Nodup
  threw : ∀ pre op post, s.history = pre ++ .empty op :: post → (pops pre).Perm (pushes pre)
  returned : ∀ pre op a post, s.history = pre ++ .popped op a :: post →
    ¬ (pops pre).Perm (pushes pre)

/-- The step is not the last statement of `shared_ptr<T> pop()`. -/
def keepsOff (s : State τ T) : Label τ T → Bool
  | .push _ _ | .pop _ _ => true
  | .run t =>
    match s.points t with
    | .last .shared _ => false
    | _ => true

-- ---------------------------------------------------------------------------
-- The mutex, and what a call knows of the stack
-- ---------------------------------------------------------------------------

/-- The thread holds `m`. -/
def Point.Inside : Point T → Prop
  | .idle | .lockPush _ | .lockPop _ => False
  | .push _ | .test _ | .copy _ | .last _ _ | .unlock => True

/-- Past the test the stack is not empty, and past the copy its top is known. -/
def PointOk (data : List T) : Point T → Prop
  | .copy _ => data ≠ []
  | .last _ res => data.head? = some res
  | _ => True

structure Inv (s : State τ T) : Prop where
  owned : Owned s.owner fun t => (s.points t).Inside
  points : ∀ t, PointOk s.data (s.points t)

variable {s s' : State τ T} {t : τ} {p : Point T} {data : List T}
variable {history : List (Event Overload T)}

omit [DecidableEq τ] in
theorem pointOk_outside (h : ¬ p.Inside) (data : List T) : PointOk data p := by
  cases p with
  | idle | lockPush | lockPop => trivial
  | _ => exact absurd trivial h

/-- The owner may change the stack: no other call knows anything of it. -/
theorem Inv.inside (h : Inv s) (hin : (s.points t).Inside) (hp : p.Inside) (hok : PointOk data p) :
    Inv { s.goto t p with data, history } where
  owned := h.owned.keep_update Point.Inside (iff_of_true hp hin)
  points := (forall_update_iff s.points fun _ q => PointOk data q).mpr
    ⟨hok, fun _ hu => pointOk_outside (fun hu' => hu (h.owned.unique hu' hin)) data⟩

theorem Inv.outside (h : Inv s) (hin : ¬ (s.points t).Inside) (hp : ¬ p.Inside) :
    Inv (s.goto t p) where
  owned := h.owned.keep_update Point.Inside (iff_of_false hp hin)
  points := (forall_update_iff s.points fun _ q => PointOk s.data q).mpr
    ⟨pointOk_outside hp s.data, fun u _ => h.points u⟩

theorem Inv.acquire (h : Inv s) (hfree : s.owner = none) (hp : p.Inside) (hok : PointOk s.data p) :
    Inv { s.goto t p with owner := some t } where
  owned := (hfree ▸ h.owned).acquire_update Point.Inside hp
  points := (forall_update_iff s.points fun _ q => PointOk s.data q).mpr
    ⟨hok, fun u _ => h.points u⟩

theorem Inv.release (h : Inv s) (hin : (s.points t).Inside) (hp : ¬ p.Inside) :
    Inv { s.goto t p with owner := none } where
  owned := h.owned.release_update Point.Inside hin hp
  points := (forall_update_iff s.points fun _ q => PointOk s.data q).mpr
    ⟨pointOk_outside hp s.data, fun u _ => h.points u⟩

-- ---------------------------------------------------------------------------
-- What a step does to the stack
-- ---------------------------------------------------------------------------

/-- How one step changes the stack and the history. -/
inductive Changes (s : State τ T) : Label τ T → List T → List (Event Overload T) → Prop
  | none {a : Label τ T} : keepsOff s a = true → Changes s a s.data s.history
  | push {t : τ} (new_value : T) : s.points t = .push new_value →
      Changes s (.run t) (new_value :: s.data) (s.history ++ [.pushed new_value])
  | empty {t : τ} (op : Overload) : s.points t = .test op → s.data = [] →
      Changes s (.run t) [] (s.history ++ [.empty op])
  | pop {t : τ} (op : Overload) {res : T} {rest : List T} : s.points t = .last op res →
      s.data = res :: rest →
      Changes s (.run t) (op.lastStatement s.data) (s.history ++ [.popped op res])

omit [DecidableEq τ] in
theorem keepsOff_run (h : ∀ res, s.points t ≠ .last .shared res) : keepsOff s (.run t) = true := by
  simp only [keepsOff]

theorem call_inv (h : Inv s) (hp : ¬ p.Inside) (hstep : call s t p = some s') :
    Inv s' ∧ s'.data = s.data ∧ s'.history = s.history := by
  unfold call at hstep
  split at hstep
  · rename_i hidle
    cases hstep
    exact ⟨h.outside (by rw [hidle]; exact id) hp, rfl, rfl⟩
  · cases hstep

/-- The one inversion of a step that the results below use. -/
theorem step_changes (h : Inv s) (hstep : step s a = some s') :
    Inv s' ∧ Changes s a s'.data s'.history := by
  cases a with
  | push t new_value =>
    obtain ⟨hinv, hdata, hhistory⟩ := call_inv h (p := .lockPush new_value) id hstep
    exact ⟨hinv, hdata ▸ hhistory ▸ .none rfl⟩
  | pop t op =>
    obtain ⟨hinv, hdata, hhistory⟩ := call_inv h (p := .lockPop op) id hstep
    exact ⟨hinv, hdata ▸ hhistory ▸ .none rfl⟩
  | run t =>
    have hok := h.points t
    cases hp : s.points t with
    | idle => simp [step, run, hp] at hstep
    | lockPush new_value =>
      simp only [step, run, hp, Option.ite_none_right_eq_some, Option.some.injEq] at hstep
      obtain ⟨hfree, rfl⟩ := hstep
      exact ⟨h.acquire hfree trivial trivial, .none (keepsOff_run (by simp [hp]))⟩
    | lockPop op =>
      simp only [step, run, hp, Option.ite_none_right_eq_some, Option.some.injEq] at hstep
      obtain ⟨hfree, rfl⟩ := hstep
      exact ⟨h.acquire hfree trivial trivial, .none (keepsOff_run (by simp [hp]))⟩
    | push new_value =>
      simp only [step, run, hp, Option.some.injEq] at hstep
      subst hstep
      exact ⟨h.inside (by rw [hp]; trivial) trivial trivial, .push new_value hp⟩
    | test op =>
      simp only [step, run, hp] at hstep
      split at hstep
      · rename_i hempty
        have hnil := List.isEmpty_iff.mp hempty
        cases hstep
        exact ⟨h.inside (by rw [hp]; trivial) trivial trivial, hnil ▸ .empty op hp hnil⟩
      · rename_i hempty
        cases hstep
        refine ⟨h.inside (by rw [hp]; trivial) trivial ?_, .none (keepsOff_run (by simp [hp]))⟩
        exact fun hnil => hempty (List.isEmpty_iff.mpr hnil)
    | copy op =>
      simp only [step, run, hp, Option.map_eq_some_iff] at hstep
      obtain ⟨res, htop, rfl⟩ := hstep
      exact ⟨h.inside (by rw [hp]; trivial) trivial htop, .none (keepsOff_run (by simp [hp]))⟩
    | last op res =>
      simp only [step, run, hp, Option.some.injEq] at hstep
      subst hstep
      rw [hp] at hok
      obtain ⟨rest, hdata⟩ := List.head?_eq_some_iff.mp hok
      exact ⟨h.inside (by rw [hp]; trivial) trivial trivial, .pop op hp hdata⟩
    | unlock =>
      simp only [step, run, hp, Option.some.injEq] at hstep
      subst hstep
      exact ⟨h.release (by rw [hp]; trivial) id, .none (keepsOff_run (by simp [hp]))⟩

-- ---------------------------------------------------------------------------
-- Runs
-- ---------------------------------------------------------------------------

theorem inv_init : Inv (system τ T).init where
  owned _ := iff_of_false nofun id
  points _ := trivial

/-- While no call gets to `data.top()` at its end, the stack is a stack. -/
theorem lifo_step (h : Inv s) (hlifo : Lifo s.history s.data) (ha : keepsOff s a = true)
    (hstep : step s a = some s') : Lifo s'.history s'.data := by
  obtain ⟨-, hchange⟩ := step_changes h hstep
  generalize s'.data = data' at hchange
  generalize s'.history = history' at hchange
  cases hchange with
  | none => exact hlifo
  | push new_value => exact .push new_value hlifo
  | empty op _ hnil =>
    rw [hnil] at hlifo
    exact .empty op hlifo
  | pop op hp hdata =>
    cases op with
    | shared => simp [keepsOff, hp] at ha
    | value =>
      rw [hdata] at hlifo ⊢
      exact .pop .value hlifo

/-- Values popped and left in excess of those pushed. -/
def State.excess (s : State τ T) : Int :=
  (pops s.history).length + s.data.length - (pushes s.history).length

/-- Each call that gets there adds one to the excess, and nothing takes it away. -/
theorem excess_step (h : Inv s) (hstep : step s a = some s') :
    s'.excess = s.excess + if keepsOff s a = true then 0 else 1 := by
  obtain ⟨-, hchange⟩ := step_changes h hstep
  unfold State.excess
  generalize s'.data = data' at hchange ⊢
  generalize s'.history = history' at hchange ⊢
  cases hchange with
  | none ha => simp [ha]
  | push new_value hp =>
    simp [keepsOff, hp, Event.pushed?, Event.popped?]
    omega
  | empty op hp hnil => simp [keepsOff, hp, Event.pushed?, Event.popped?, hnil]
  | pop op hp hdata =>
    cases op with
    | shared =>
      simp [keepsOff, hp, Event.pushed?, Event.popped?, Overload.lastStatement]
      omega
    | value =>
      simp [keepsOff, hp, Event.pushed?, Event.popped?, Overload.lastStatement, hdata]
      omega

/-- The excess is never negative, and without one the history is a stack's. -/
structure Counted (s : State τ T) : Prop where
  inv : Inv s
  nonneg : 0 ≤ s.excess
  lifo : s.excess = 0 → Lifo s.history s.data

theorem counted_step (h : Counted s) (hstep : step s a = some s') :
    Counted s' ∧ (s'.excess ≠ 0 ↔ s.excess ≠ 0 ∨ keepsOff s a = false) := by
  have hone := excess_step h.inv hstep
  have hnonneg := h.nonneg
  have hinv := (step_changes h.inv hstep).1
  cases ha : keepsOff s a with
  | true =>
    rw [ha, if_pos rfl, Int.add_zero] at hone
    refine ⟨⟨hinv, hone ▸ hnonneg, fun hzero => ?_⟩, by simp [hone]⟩
    exact lifo_step h.inv (h.lifo (hone ▸ hzero)) ha hstep
  | false =>
    rw [ha, if_neg Bool.false_ne_true] at hone
    exact ⟨⟨hinv, by omega, fun hzero => by omega⟩, iff_of_true (by omega) (.inr rfl)⟩

theorem counted_init : Counted (system τ T).init := ⟨inv_init, Int.le_refl 0, fun _ => .nil⟩

omit [DecidableEq τ] in
theorem correct_of_lifo (h : Lifo s.history s.data) : Correct s where
  lifo := h
  accounts := h.perm
  once := h.pops_nodup
  threw _ _ _ heq := (heq ▸ h).perm_of_empty
  returned _ _ _ _ heq := (heq ▸ h).not_perm_of_popped

/-- A run is that of a stack exactly when no call of `shared_ptr<T> pop()` gets
to its last statement, that is, past its test for emptiness and its copy. -/
theorem lifo_iff (as : List (Label τ T)) (s : State τ T)
    (hrun : (system τ T).exec (system τ T).init as = some s) :
    Correct s ↔ (system τ T).execIf keepsOff (system τ T).init as = some s := by
  have hstep (s : State τ T) (a : Label τ T) (s' : State τ T) (hs : Counted s)
      (ha : (system τ T).step s a = some s') :
      Counted s' ∧ (s'.excess ≠ 0 ↔ s.excess ≠ 0 ∨ keepsOff s a = false) := counted_step hs ha
  obtain ⟨hcounted, hexcess⟩ := Lts.exec_iff_execIf hstep counted_init hrun
  have hinit : (system τ T).init.excess = 0 := rfl
  rw [hinit, ne_self_iff_false, false_or, not_iff_not] at hexcess
  rw [← hexcess]
  refine ⟨fun h => ?_, fun hzero => correct_of_lifo (hcounted.lifo hzero)⟩
  have hlen := h.accounts.length_eq
  rw [List.length_append] at hlen
  rw [State.excess]
  omega

/-- A call of `void pop(T&)`: it takes the mutex and goes through its statements. -/
def popValue (t : τ) : List (Label τ T) := .pop t .value :: List.replicate 5 (.run t)

def push (t : τ) (new_value : T) : List (Label τ T) :=
  .push t new_value :: List.replicate 3 (.run t)

/-- One thread pushes two values and another pops them. -/
theorem lifo_iff_two : ∃ s, (system (Fin 2) Nat).exec (system (Fin 2) Nat).init
    (push 0 7 ++ push 0 8 ++ popValue 1 ++ popValue 1) = some s ∧ pops s.history = [8, 7] ∧
      Correct s := by
  obtain ⟨s, hrun, hpops⟩ : ∃ s, (system (Fin 2) Nat).exec (system (Fin 2) Nat).init
      (push 0 7 ++ push 0 8 ++ popValue 1 ++ popValue 1) = some s ∧ pops s.history = [8, 7] :=
    ⟨_, rfl, rfl⟩
  exact ⟨s, hrun, hpops, (lifo_iff _ s hrun).mpr (by rw [← hrun]; rfl)⟩

/-- A value is pushed once and popped twice, by two calls of `shared_ptr<T> pop()`. -/
theorem shared_pops_twice : ∃ s, (system (Fin 2) Nat).exec (system (Fin 2) Nat).init
    (push 0 7 ++ (.pop 1 .shared :: List.replicate 5 (.run 1)) ++
      (.pop 1 .shared :: List.replicate 5 (.run 1))) = some s ∧
    pushes s.history = [7] ∧ pops s.history = [7, 7] ∧ ¬ Correct s := by
  refine ⟨_, rfl, rfl, rfl, fun h => ?_⟩
  have hlen := h.accounts.length_eq
  exact absurd hlen (by decide)

end DdsAuto.Concurrent.ThreadsafeStack
