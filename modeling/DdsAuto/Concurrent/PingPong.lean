import DdsAuto.Lib.Mutex
import DdsAuto.Lib.Refinement

/-!
# Two threads that print in turn

`PoorImplemention` polls `num` under its mutex, and `ResonableImplemention` waits on one
condition variable for each thread. Both print as an abstract system of turns does. Where the threads
wait, there is a print for every few steps, but for those that spurious returns from `wait` cost.
-/

namespace DdsAuto.Concurrent.PingPong

open Lts Mutex Function

-- ---------------------------------------------------------------------------
-- Turns
-- ---------------------------------------------------------------------------

section
variable {τ : Type} [DecidableEq τ] {order : Nat → τ} {printed : List τ}

/-- Whoever is next in `order` prints. -/
def turns (order : Nat → τ) : Lts (List τ) τ where
  init := []
  step printed t := if t = order printed.length then some (printed ++ [t]) else none

theorem printed_of_turns (h : (turns order).Reachable anyStep printed) :
    printed = (List.range printed.length).map order := by
  refine h.invariant (P := fun printed => printed = (List.range printed.length).map order) rfl ?_
  intro printed t printed' hprinted _ hstep
  simp only [turns, Option.ite_none_right_eq_some, Option.some.injEq] at hstep
  obtain ⟨rfl, rfl⟩ := hstep
  rw [List.length_append, List.length_singleton, List.range_succ, List.map_append, ← hprinted]
  rfl

theorem prefix_of_follows {printed' : List τ} (h : (turns order).Follows anyStep printed printed') :
    printed <+: printed' := by
  rcases h with rfl | ⟨t, -, hstep⟩
  · exact List.prefix_rfl
  · simp only [turns, Option.ite_none_right_eq_some, Option.some.injEq] at hstep
    obtain ⟨-, rfl⟩ := hstep
    exact List.prefix_append ..

end

/-- The threads, which the source calls A and B. -/
inductive Side
  | A
  | B
  deriving DecidableEq, Repr

def Side.other : Side → Side
  | A => B
  | B => A

/-- The value for which a thread prints. -/
def Side.num : Side → Int
  | A => 1
  | B => 2

/-- What `num++` and `num--` make of it. -/
def Side.change : Side → Int → Int
  | A, num => num + 1
  | B, num => num - 1

def order (k : Nat) : Side := if k % 2 = 0 then .A else .B

@[simp] theorem Side.other_ne (p : Side) : p.other ≠ p := by cases p <;> simp [other]

@[simp] theorem Side.other_other (p : Side) : p.other.other = p := by cases p <;> rfl

@[simp] theorem Side.change_num (p : Side) : p.change p.num = p.other.num := by cases p <;> rfl

@[simp] theorem Side.num_inj {p q : Side} : p.num = q.num ↔ p = q := by
  cases p <;> cases q <;> simp [num]

theorem Side.num_other {p : Side} {num : Int} (h : num = 1 ∨ num = 2) (hne : num ≠ p.num) :
    num = p.other.num := by
  cases p <;> rcases h with rfl | rfl <;> first | rfl | exact absurd rfl hne

theorem Side.eq_other {p q : Side} (h : q ≠ p) : q = p.other := by
  cases p <;> cases q <;> first | rfl | exact absurd rfl h

@[simp] theorem order_succ (k : Nat) : order (k + 1) = (order k).other := by
  rcases Nat.mod_two_eq_zero_or_one k with hk | hk
  · have hsucc : (k + 1) % 2 ≠ 0 := by omega
    rw [order, order, if_pos hk, if_neg hsucc, Side.other]
  · have hsucc : (k + 1) % 2 = 0 := by omega
    rw [order, order, if_pos hsucc, if_neg (by rw [hk]; exact Nat.one_ne_zero), Side.other]

/-- Where `num` stands while nobody is between the print and the change. -/
def OnTurn (num : Int) (printed : List Side) : Prop := num = (order printed.length).num

theorem onTurn_print {p : Side} {num : Int} {printed : List Side} (h : OnTurn num printed)
    (hnum : num = p.num) :
    (turns order).step printed p = some (printed ++ [p]) ∧
      OnTurn (p.change num) (printed ++ [p]) := by
  have hp : p = order printed.length := Side.num_inj.mp (hnum.symm.trans h)
  refine ⟨if_pos hp, ?_⟩
  rw [OnTurn, List.length_append, List.length_singleton, order_succ, ← hp, hnum, Side.change_num]

-- ---------------------------------------------------------------------------
-- ResonableImplemention
-- ---------------------------------------------------------------------------

namespace Resonable

/-- Where a thread is: before the operation named. In `waiting` it sleeps in `wait`, and in
`relock` it takes the mutex again; the sleep at the end of a pass is before `unlock`. -/
inductive Pc
  | lock
  | test
  | waiting
  | relock
  | change
  | print
  | notify
  | unlock
  deriving DecidableEq, Repr

structure State where
  num2 : Int
  mutex : Option Side
  pc : Side → Pc
  printed : List Side

inductive Label
  | run (p : Side)
  | spurious (p : Side)
  deriving DecidableEq, Repr

def State.goto (s : State) (p : Side) (pc : Pc) : State := { s with pc := update s.pc p pc }

@[simp] theorem State.goto_num2 (s : State) (p : Side) (pc : Pc) : (s.goto p pc).num2 = s.num2 := rfl

@[simp] theorem State.goto_printed (s : State) (p : Side) (pc : Pc) :
    (s.goto p pc).printed = s.printed := rfl

@[simp] theorem State.goto_self (s : State) (p : Side) (pc : Pc) : (s.goto p pc).pc p = pc :=
  update_self ..

@[simp] theorem State.goto_other (s : State) (p : Side) (pc : Pc) :
    (s.goto p pc).pc p.other = s.pc p.other :=
  update_of_ne p.other_ne ..

/-- The next operation of a thread; `none` while it sleeps or the mutex is taken. -/
def run (s : State) (p : Side) : Option State :=
  match s.pc p with
  | .lock | .relock => if s.mutex = none then some { s.goto p .test with mutex := some p } else none
  | .test =>
    if s.num2 = p.num then some (s.goto p .change)
    else some { s.goto p .waiting with mutex := none }
  | .waiting => none
  | .change => some { s.goto p .print with num2 := p.change s.num2 }
  | .print => some { s.goto p .notify with printed := s.printed ++ [p] }
  | .notify =>
    let s := if s.pc p.other = .waiting then s.goto p.other .relock else s
    some (s.goto p .unlock)
  | .unlock => some { s.goto p .lock with mutex := none }

def step (s : State) : Label → Option State
  | .run p => run s p
  | .spurious p => if s.pc p = .waiting then some (s.goto p .relock) else none

def system : Lts State Label where
  init := ⟨1, none, fun _ => .lock, []⟩
  step := step

/-- It has the mutex. -/
def Pc.inside : Pc → Bool
  | .test | .change | .print | .notify | .unlock => true
  | _ => false

abbrev Pc.Inside (pc : Pc) : Prop := pc.inside = true

/-- What is known of `num2` and of the other thread at each point. -/
def PointOk (s : State) (p : Side) : Pc → Prop
  | .change => s.num2 = p.num
  | .print => s.num2 = p.other.num ∧ OnTurn p.num s.printed
  | .notify => s.num2 = p.other.num
  | .waiting => s.num2 = p.num → s.pc p.other = .print ∨ s.pc p.other = .notify
  | _ => True

structure Inv (s : State) : Prop where
  owned : Owned s.mutex fun p => (s.pc p).Inside
  num : s.num2 = 1 ∨ s.num2 = 2
  points : ∀ p, PointOk s p (s.pc p)
  turn : (∀ p, s.pc p ≠ .print) → OnTurn s.num2 s.printed

variable {s s' : State} {p : Side} {a : Label}

attribute [local simp] run

-- ---------------------------------------------------------------------------
-- One thread moves
-- ---------------------------------------------------------------------------

/-- Only the thread that has the mutex moves, and nobody has it when a thread takes it. -/
theorem Inv.other_outside (h : Inv s) (hrun : run s p = some s') :
    (s.pc p.other).inside = false := by
  rw [← Bool.not_eq_true]
  intro hin
  have howner := (h.owned p.other).mpr hin
  cases hpc : s.pc p with
  | lock | relock => simp [hpc, howner] at hrun
  | waiting => simp [hpc] at hrun
  | _ => exact absurd (h.owned.unique hin (by rw [hpc]; rfl)) p.other_ne

theorem pointOk_outside {pc : Pc} (hout : pc.inside = false)
    (hwait : pc = .waiting → s.num2 = p.num → s.pc p.other = .print ∨ s.pc p.other = .notify) :
    PointOk s p pc := by
  cases pc with
  | waiting => exact hwait rfl
  | lock | relock => trivial
  | _ => cases hout

/-- The points after a step of `p`. -/
theorem points_update {pc : Pc} (hpc : s'.pc = update s.pc p pc) (hown : PointOk s' p pc)
    (hout : (s.pc p.other).inside = false)
    (hwait : s.pc p.other = .waiting → s'.num2 = p.other.num → pc = .print ∨ pc = .notify) :
    ∀ q, PointOk s' q (s'.pc q) := by
  intro q
  by_cases hq : q = p
  · subst hq
    rw [hpc, update_self]
    exact hown
  · rw [Side.eq_other hq, hpc, update_of_ne p.other_ne]
    refine pointOk_outside hout fun hw hnum => ?_
    rw [Side.other_other, hpc, update_self]
    exact hwait hw hnum

/-- While `p` is elsewhere than about to print or notify, `num2` is not what the other waits for. -/
theorem Inv.num_ne (h : Inv s) (hw : s.pc p.other = .waiting) (hprint : s.pc p ≠ .print)
    (hnotify : s.pc p ≠ .notify) : s.num2 ≠ p.other.num := by
  intro hnum
  have hpoint := h.points p.other
  rw [hw] at hpoint
  rcases hpoint hnum with hpc | hpc
  · exact hprint (by rwa [Side.other_other] at hpc)
  · exact hnotify (by rwa [Side.other_other] at hpc)

/-- Where no thread is at `print`, before and after, the turn is as it was. -/
theorem turn_update {pc : Pc} (h : Inv s) (hpc : s'.pc = update s.pc p pc) (hp : s.pc p ≠ .print)
    (hnum : s'.num2 = s.num2) (hprinted : s'.printed = s.printed) :
    (∀ q, s'.pc q ≠ .print) → OnTurn s'.num2 s'.printed := by
  intro hall
  rw [hnum, hprinted]
  refine h.turn fun q => ?_
  by_cases hq : q = p
  · rwa [hq]
  · have := hall q
    rwa [hpc, update_of_ne hq] at this

theorem inv_init : Inv system.init where
  owned p := by cases p <;> simp [system, Pc.inside]
  num := .inl rfl
  points p := trivial
  turn _ := rfl

theorem Inv.notPrint (h : Inv s) (hin : (s.pc p).inside = true) (hp : s.pc p ≠ .print) (q : Side) :
    s.pc q ≠ .print := by
  intro hq
  have heq := h.owned.unique hin (t := p) (u := q) (by rw [hq]; rfl)
  exact hp (heq ▸ hq)

/-- A thread that sleeps is woken, by the other or for no reason. -/
theorem inv_wake (h : Inv s) (hw : s.pc p = .waiting) : Inv (s.goto p .relock) := by
  refine ⟨h.owned.keep_update Pc.Inside (by simp [hw, Pc.inside]), h.num, fun q => ?_,
    turn_update h rfl (by simp [hw]) rfl rfl⟩
  by_cases hq : q = p
  · subst hq
    rw [State.goto_self]
    trivial
  · have hpoint := h.points q
    have hsame : (s.goto p .relock).pc q = s.pc q := update_of_ne hq ..
    rw [hsame]
    cases hpc : s.pc q with
    | waiting =>
      rw [hpc] at hpoint
      intro hnum
      have hp : q.other = p := by rw [Side.eq_other hq, Side.other_other]
      have hor := hpoint hnum
      rw [hp, hw] at hor
      rcases hor with h | h <;> cases h
    | _ => rwa [hpc] at hpoint

/-- A step of `p` that changes neither `num2` nor what is printed, from a point where `num2` is
not yet what the other waits for. -/
theorem Inv.move {pc : Pc} (h : Inv s) (hout : (s.pc p.other).inside = false)
    (hprint : s.pc p ≠ .print) (hnotify : s.pc p ≠ .notify) (hpc : s'.pc = update s.pc p pc)
    (hnum : s'.num2 = s.num2) (hprinted : s'.printed = s.printed)
    (howned : Owned s'.mutex fun q => (s'.pc q).Inside) (hown : PointOk s' p pc) : Inv s' where
  owned := howned
  num := by
    rw [hnum]
    exact h.num
  points := points_update hpc hown hout fun hw heq =>
    absurd (hnum.symm.trans heq) (h.num_ne hw hprint hnotify)
  turn := turn_update h hpc hprint hnum hprinted

/-- `notify_one` wakes the other thread if it sleeps. -/
theorem Inv.woken (h : Inv s) (hpc : s.pc p = .notify) :
    ∃ t, (if s.pc p.other = .waiting then s.goto p.other .relock else s) = t ∧ Inv t ∧
      t.pc p = .notify ∧ t.pc p.other ≠ .waiting := by
  by_cases hw : s.pc p.other = .waiting
  · refine ⟨_, if_pos hw, inv_wake h hw, ?_, ?_⟩
    · rw [← hpc]
      exact update_of_ne p.other_ne.symm ..
    · rw [State.goto_self]
      exact Pc.noConfusion
  · exact ⟨s, if_neg hw, h, hpc, hw⟩

theorem inv_run (h : Inv s) (hrun : run s p = some s') : Inv s' := by
  have hout := h.other_outside hrun
  have howned := h.owned
  cases hpc : s.pc p with
  | lock | relock =>
    simp only [run, hpc, Option.ite_none_right_eq_some, Option.some.injEq] at hrun
    obtain ⟨hfree, rfl⟩ := hrun
    rw [hfree] at howned
    exact h.move hout (by simp [hpc]) (by simp [hpc]) rfl rfl rfl
      (howned.acquire_update Pc.Inside rfl) trivial
  | test =>
    simp only [run, hpc] at hrun
    split at hrun
    · rename_i hturn
      cases hrun
      exact h.move hout (by simp [hpc]) (by simp [hpc]) rfl rfl rfl
        (howned.keep_update Pc.Inside (by simp [hpc, Pc.inside])) hturn
    · rename_i hturn
      cases hrun
      exact h.move hout (by simp [hpc]) (by simp [hpc]) rfl rfl rfl
        (howned.release_update Pc.Inside (by rw [hpc]; rfl) (by decide))
        fun hnum => absurd hnum hturn
  | waiting => simp [hpc] at hrun
  | change =>
    simp only [run, hpc, Option.some.injEq] at hrun
    subst hrun
    have hpoint := h.points p
    rw [hpc] at hpoint
    have hturn := h.turn (h.notPrint (p := p) (by rw [hpc]; rfl) (by simp [hpc]))
    have hchange : p.change s.num2 = p.other.num := by
      rw [show s.num2 = p.num from hpoint, Side.change_num]
    refine ⟨howned.keep_update Pc.Inside (by simp [hpc, Pc.inside]), ?_,
      points_update rfl ⟨hchange, ?_⟩ hout fun _ _ => .inl rfl, fun hall => ?_⟩
    · show p.change s.num2 = 1 ∨ p.change s.num2 = 2
      rw [hchange]
      cases p <;> simp [Side.other, Side.num]
    · rwa [show s.num2 = p.num from hpoint] at hturn
    · exact absurd (update_self ..) (hall p)
  | print =>
    simp only [run, hpc, Option.some.injEq] at hrun
    subst hrun
    have hpoint := h.points p
    rw [hpc] at hpoint
    obtain ⟨hnum, hturn⟩ := hpoint
    refine ⟨howned.keep_update Pc.Inside (by simp [hpc, Pc.inside]), h.num,
      points_update rfl hnum hout fun _ _ => .inr rfl, fun _ => ?_⟩
    have hnext := (onTurn_print hturn rfl).2
    rwa [Side.change_num, ← hnum] at hnext
  | notify =>
    simp only [run, hpc, Option.some.injEq] at hrun
    obtain ⟨t, hwake, hinv, hpc', hw⟩ := h.woken hpc
    rw [hwake] at hrun
    subst hrun
    have hout : (t.pc p.other).inside = false := by
      rw [← Bool.not_eq_true]
      intro hin
      exact absurd (hinv.owned.unique hin (by rw [hpc']; rfl)) p.other_ne
    exact ⟨hinv.owned.keep_update Pc.Inside (by simp [hpc', Pc.inside]), hinv.num,
      points_update rfl trivial hout fun hw' => absurd hw' hw,
      turn_update hinv rfl (by simp [hpc']) rfl rfl⟩
  | unlock =>
    simp only [run, hpc, Option.some.injEq] at hrun
    subst hrun
    exact h.move hout (by simp [hpc]) (by simp [hpc]) rfl rfl rfl
      (howned.release_update Pc.Inside (by rw [hpc]; rfl) (by decide)) trivial

theorem inv_step (h : Inv s) (hstep : step s a = some s') : Inv s' := by
  cases a with
  | run p => exact inv_run h hstep
  | spurious p =>
    simp only [step, Option.ite_none_right_eq_some, Option.some.injEq] at hstep
    obtain ⟨hw, rfl⟩ := hstep
    exact inv_wake h hw

/-- What a step prints is due. -/
theorem follows_step (h : Inv s) (hstep : step s a = some s') :
    (turns order).Follows anyStep s.printed s'.printed := by
  cases a with
  | spurious p =>
    simp only [step, Option.ite_none_right_eq_some, Option.some.injEq] at hstep
    obtain ⟨-, rfl⟩ := hstep
    exact .refl ..
  | run p =>
    cases hpc : s.pc p with
    | print =>
      simp only [step, run, hpc, Option.some.injEq] at hstep
      subst hstep
      have hpoint := h.points p
      rw [hpc] at hpoint
      exact .of_step p trivial (onTurn_print hpoint.2 rfl).1
    | waiting => simp [step, hpc] at hstep
    | lock | relock =>
      simp only [step, run, hpc, Option.ite_none_right_eq_some, Option.some.injEq] at hstep
      obtain ⟨-, rfl⟩ := hstep
      exact .refl ..
    | test =>
      simp only [step, run, hpc] at hstep
      split at hstep <;> cases hstep <;> exact .refl ..
    | notify =>
      simp only [step, run, hpc, Option.some.injEq] at hstep
      subst hstep
      refine .inl ?_
      split <;> rfl
    | change | unlock =>
      simp only [step, run, hpc, Option.some.injEq] at hstep
      subst hstep
      exact .refl ..

-- ---------------------------------------------------------------------------
-- Progress
-- ---------------------------------------------------------------------------

/-- A thread with the mutex goes on, and so does one that wants it while it is free; the two
never sleep at once. -/
theorem exists_run (h : Inv s) : ∃ p s', run s p = some s' := by
  have hmoves (p : Side) (hin : (s.pc p).Inside) : ∃ s', run s p = some s' := by
    cases hpc : s.pc p with
    | lock | relock | waiting =>
      rw [hpc] at hin
      cases hin
    | test => by_cases hturn : s.num2 = p.num <;> exact ⟨_, by simp [hpc, hturn]; rfl⟩
    | _ => exact ⟨_, by simp only [run, hpc]; rfl⟩
  cases howner : s.mutex with
  | some p => exact ⟨p, hmoves p ((h.owned p).mp howner)⟩
  | none =>
    have hfree := h.owned
    rw [howner] at hfree
    have hnum : ∃ p : Side, s.num2 = p.num := by
      rcases h.num with hn | hn
      · exact ⟨.A, hn⟩
      · exact ⟨.B, hn⟩
    obtain ⟨p, hnum⟩ := hnum
    have hout := hfree.outside p
    refine ⟨p, ?_⟩
    cases hpc : s.pc p with
    | lock | relock => exact ⟨_, by simp only [run, hpc, howner, if_true]; rfl⟩
    | waiting =>
      have hpoint := h.points p
      rw [hpc] at hpoint
      rcases hpoint hnum with hother | hother <;>
        exact absurd (by rw [hother]; rfl) (hfree.outside p.other)
    | _ => exact absurd (by rw [hpc]; rfl) hout

/-- How far a thread has come in its pass, from its print on. -/
def Pc.spent (turn : Bool) : Pc → Nat
  | .notify => 0
  | .unlock => 1
  | .lock => 2
  | .test => if turn then 5 else 3
  | .waiting => 4
  | .relock => if turn then 4 else 2
  | .change => 6
  | .print => 7

def State.spent (s : State) (p : Side) : Nat := (s.pc p).spent (s.num2 = p.num)

/-- Eight for each print, and what the two passes under way have done. -/
def State.gain (s : State) : Nat := 8 * s.printed.length + s.spent .A + s.spent .B

def Label.isSpurious : Label → Bool
  | .run _ => false
  | .spurious _ => true

def credit (a : Label) : Nat := if a.isSpurious then 3 else 0

theorem gain_eq (s : State) (p : Side) :
    s.gain = 8 * s.printed.length + s.spent p + s.spent p.other := by
  cases p
  · rfl
  · rw [State.gain, Side.other]
    omega

theorem Pc.spent_le (pc : Pc) (turn : Bool) :
    pc.spent false ≤ pc.spent turn ∧ pc.spent turn ≤ 7 := by
  cases pc <;> cases turn <;> decide

/-- A step of `p` that leaves the other's point alone and does not take its turn. -/
theorem gain_lt {pc : Pc} (hpc : s'.pc = update s.pc p pc)
    (hturn : s.num2 = p.other.num → s'.num2 = p.other.num)
    (hgain : 8 * s.printed.length + s.spent p < 8 * s'.printed.length + pc.spent (s'.num2 = p.num)) :
    s.gain < s'.gain := by
  have hown : s'.spent p = pc.spent (s'.num2 = p.num) := by rw [State.spent, hpc, update_self]
  have hother : s.spent p.other ≤ s'.spent p.other := by
    rw [State.spent, State.spent, hpc, update_of_ne p.other_ne]
    by_cases hnum : s.num2 = p.other.num
    · exact Nat.le_of_eq (by rw [hturn hnum, hnum])
    · rw [decide_eq_false hnum]
      exact (Pc.spent_le ..).1
  rw [gain_eq s p, gain_eq s' p, hown]
  omega

theorem gain_run (h : Inv s) (hrun : run s p = some s') : s.gain < s'.gain := by
  cases hpc : s.pc p with
  | lock | relock =>
    simp only [run, hpc, Option.ite_none_right_eq_some, Option.some.injEq] at hrun
    obtain ⟨-, rfl⟩ := hrun
    refine gain_lt (p := p) rfl id (Nat.add_lt_add_left ?_ _)
    rw [State.spent, hpc]
    by_cases hnum : s.num2 = p.num <;> simp [State.goto, Pc.spent, hnum]
  | test =>
    simp only [run, hpc] at hrun
    split at hrun
    · rename_i hturn
      cases hrun
      refine gain_lt (p := p) rfl id (Nat.add_lt_add_left ?_ _)
      simp [State.spent, hpc, Pc.spent, hturn]
    · rename_i hturn
      cases hrun
      refine gain_lt (p := p) rfl id (Nat.add_lt_add_left ?_ _)
      simp [State.spent, hpc, Pc.spent, hturn]
  | waiting => simp [hpc] at hrun
  | change =>
    simp only [run, hpc, Option.some.injEq] at hrun
    subst hrun
    have hpoint := h.points p
    rw [hpc] at hpoint
    refine gain_lt (p := p) rfl (fun _ => ?_) (Nat.add_lt_add_left ?_ _)
    · show p.change s.num2 = p.other.num
      rw [show s.num2 = p.num from hpoint, Side.change_num]
    · simp [State.spent, hpc, Pc.spent]
  | print =>
    simp only [run, hpc, Option.some.injEq] at hrun
    subst hrun
    refine gain_lt (p := p) rfl id ?_
    simp only [State.spent, hpc, Pc.spent, List.length_append, List.length_singleton]
    omega
  | notify =>
    simp only [run, hpc, Option.some.injEq] at hrun
    subst hrun
    have hpoint := h.points p
    rw [hpc] at hpoint
    have hnum : s.num2 = p.other.num := hpoint
    split
    · rename_i hw
      rw [gain_eq s p, gain_eq _ p]
      simp [State.spent, hpc, hw, hnum, Pc.spent]
    · refine gain_lt (p := p) rfl id (Nat.add_lt_add_left ?_ _)
      simp [State.spent, hpc, Pc.spent]
  | unlock =>
    simp only [run, hpc, Option.some.injEq] at hrun
    subst hrun
    refine gain_lt (p := p) rfl id (Nat.add_lt_add_left ?_ _)
    simp [State.spent, hpc, Pc.spent]

theorem gain_step (h : Inv s) (hstep : step s a = some s') : s.gain < s'.gain + credit a := by
  cases a with
  | run p => exact gain_run h hstep
  | spurious p =>
    simp only [step, Option.ite_none_right_eq_some, Option.some.injEq] at hstep
    obtain ⟨hw, rfl⟩ := hstep
    have hold : s.spent p = 4 := by rw [State.spent, hw]; rfl
    have hother : (s.goto p .relock).spent p.other = s.spent p.other := by
      rw [State.spent, State.goto_other]
      rfl
    have hown : 2 ≤ (s.goto p .relock).spent p := by
      rw [State.spent, State.goto_self, Pc.spent]
      split <;> decide
    rw [gain_eq s p, gain_eq _ p, hold, hother, State.goto_printed]
    simp only [credit, Label.isSpurious, if_true]
    omega

/-- In every run the two print in turn, and some thread can go on; there is a print for every
8 steps, but for what is under way and what spurious returns cost. -/
theorem resonable_prints_in_turn (hrun : system.exec system.init as = some s) :
    s.printed = (List.range s.printed.length).map order ∧
      as.length ≤ 8 * s.printed.length + 10 + 3 * as.countP Label.isSpurious ∧
      ∃ p s', step s (.run p) = some s' := by
  have hreach : system.Reachable anyStep s := Reachable.init.exec hrun
  have hinv : ∀ t, system.Reachable anyStep t → Inv t := fun t ht =>
    ht.invariant inv_init fun _ _ _ h _ hstep => inv_step h hstep
  refine ⟨printed_of_turns ?_, ?_, exists_run (hinv s hreach)⟩
  · exact hreach.map rfl fun t _ _ ht _ _ hstep => follows_step (hinv t ht) hstep
  · have hle := length_le_of_gain (L := system) (P := Inv) (μ := State.gain) credit
      (fun _ _ _ h hstep => gain_step h hstep) (fun _ _ _ h hstep => inv_step h hstep) inv_init hrun
    have hA : s.spent .A ≤ 7 := ((s.pc .A).spent_le _).2
    have hB : s.spent .B ≤ 7 := ((s.pc .B).spent_le _).2
    have hcredit (a : Label) : credit a = if a.isSpurious then 3 else 0 := rfl
    rw [credits_of_ite hcredit, show system.init.gain = 4 from rfl, State.gain] at hle
    omega

/-- B sleeps, comes back for no reason and sleeps again, until A has printed. -/
theorem resonable_prints_in_turn_two : ∃ as s, system.exec system.init as = some s ∧
    s.printed = [.A, .B] ∧ as.length ≤ 29 := by
  let as : List Label := [.run .B, .run .B, .spurious .B, .run .B, .run .B] ++
    List.replicate 5 (.run .A) ++ [.run .A] ++ List.replicate 4 (.run .B)
  have hrun : (system.exec system.init as).any (fun s => s.printed == [.A, .B]) = true := by
    decide +kernel
  obtain ⟨s, hrun, hprinted⟩ := (Option.any_eq_true _ _).mp hrun
  rw [beq_iff_eq] at hprinted
  obtain ⟨-, hlen, -⟩ := resonable_prints_in_turn hrun
  rw [hprinted, show as.countP Label.isSpurious = 1 by decide] at hlen
  exact ⟨as, s, hrun, hprinted, hlen⟩

end Resonable

-- ---------------------------------------------------------------------------
-- PoorImplemention
-- ---------------------------------------------------------------------------

namespace Poor

/-- As above; both ways out of the block are before `unlock`, and the sleep is before `lock`. -/
inductive Pc
  | lock
  | test
  | print
  | change
  | unlock
  deriving DecidableEq, Repr

structure State where
  num : Int
  mutex : Option Side
  pc : Side → Pc
  printed : List Side

def State.goto (s : State) (p : Side) (pc : Pc) : State := { s with pc := update s.pc p pc }

def run (s : State) (p : Side) : Option State :=
  match s.pc p with
  | .lock => if s.mutex = none then some { s.goto p .test with mutex := some p } else none
  | .test => some (s.goto p (if s.num = p.num then .print else .unlock))
  | .print => some { s.goto p .change with printed := s.printed ++ [p] }
  | .change => some { s.goto p .unlock with num := p.change s.num }
  | .unlock => some { s.goto p .lock with mutex := none }

def system : Lts State Side where
  init := ⟨1, none, fun _ => .lock, []⟩
  step := run

/-- It has the mutex. -/
def Pc.Inside (pc : Pc) : Prop := pc ≠ .lock

/-- What is known of `num` at each point. A thread that leaves is not the next to print. -/
def PointOk (s : State) (p : Side) : Pc → Prop
  | .lock => True
  | .test => OnTurn s.num s.printed
  | .print => s.num = p.num ∧ OnTurn s.num s.printed
  | .change => s.num = p.num ∧ OnTurn p.other.num s.printed
  | .unlock => s.num = p.other.num ∧ OnTurn s.num s.printed

structure Inv (s : State) : Prop where
  owned : Owned s.mutex fun p => (s.pc p).Inside
  num : s.num = 1 ∨ s.num = 2
  points : ∀ p, PointOk s p (s.pc p)
  free : s.mutex = none → OnTurn s.num s.printed

variable {s s' : State} {p : Side}

theorem inv_init : Inv system.init where
  owned p := by simp [system, Pc.Inside]
  num := .inl rfl
  points p := trivial
  free _ := rfl

/-- A thread with the mutex goes to a point inside. -/
theorem Inv.move (h : Inv s) {pc : Pc} (hin : (s.pc p).Inside) (hpc : s'.pc = update s.pc p pc)
    (hmutex : s'.mutex = s.mutex) (hinside : pc.Inside) (hnum : s'.num = 1 ∨ s'.num = 2)
    (hpoint : PointOk s' p pc) : Inv s' := by
  have howner := (h.owned p).mpr hin
  refine ⟨?_, hnum, fun q => ?_, fun hfree => ?_⟩
  · rw [hmutex, hpc]
    exact h.owned.keep_update Pc.Inside (iff_of_true hinside hin)
  · by_cases hq : q = p
    · subst hq
      rwa [hpc, update_self]
    · have hout : s.pc q = .lock := by
        by_contra hne
        exact hq (h.owned.unique hne hin)
      rw [hpc, update_of_ne hq, hout]
      trivial
  · rw [hmutex, howner] at hfree
    cases hfree

theorem inv_run (h : Inv s) (hrun : run s p = some s') : Inv s' := by
  have hpoint := h.points p
  cases hpc : s.pc p with
  | lock =>
    simp only [run, hpc, Option.ite_none_right_eq_some, Option.some.injEq] at hrun
    obtain ⟨hfree, rfl⟩ := hrun
    have howned := h.owned
    rw [hfree] at howned
    refine ⟨howned.acquire_update Pc.Inside Pc.noConfusion, h.num, fun q => ?_,
      fun hnone => by cases hnone⟩
    by_cases hq : q = p
    · subst hq
      rw [show (s.goto q .test).pc q = .test from update_self ..]
      exact h.free hfree
    · have hout : s.pc q = .lock := not_not.mp (howned.outside q)
      rw [show (s.goto p .test).pc q = s.pc q from update_of_ne hq .., hout]
      trivial
  | test =>
    rw [hpc] at hpoint
    simp only [run, hpc, Option.some.injEq] at hrun
    subst hrun
    have hin : (s.pc p).Inside := by rw [hpc]; exact Pc.noConfusion
    split
    · rename_i hnum
      exact h.move hin rfl rfl Pc.noConfusion h.num ⟨hnum, hpoint⟩
    · rename_i hnum
      refine h.move hin rfl rfl Pc.noConfusion h.num ⟨?_, hpoint⟩
      exact Side.num_other h.num hnum
  | print =>
    rw [hpc] at hpoint
    simp only [run, hpc, Option.some.injEq] at hrun
    subst hrun
    have hnext := (onTurn_print hpoint.2 hpoint.1).2
    rw [hpoint.1, Side.change_num] at hnext
    exact h.move (by rw [hpc]; exact Pc.noConfusion) rfl rfl Pc.noConfusion h.num ⟨hpoint.1, hnext⟩
  | change =>
    rw [hpc] at hpoint
    simp only [run, hpc, Option.some.injEq] at hrun
    subst hrun
    have hchange : p.change s.num = p.other.num := by rw [hpoint.1, Side.change_num]
    refine h.move (by rw [hpc]; exact Pc.noConfusion) rfl rfl Pc.noConfusion ?_
      ⟨hchange, by rw [hchange]; exact hpoint.2⟩
    rw [hchange]
    cases p <;> simp [Side.other, Side.num]
  | unlock =>
    rw [hpc] at hpoint
    simp only [run, hpc, Option.some.injEq] at hrun
    subst hrun
    have hin : (s.pc p).Inside := by rw [hpc]; exact Pc.noConfusion
    refine ⟨h.owned.release_update Pc.Inside hin (fun hne => hne rfl), h.num, fun q => ?_,
      fun _ => hpoint.2⟩
    have hlock : (s.goto p .lock).pc q = .lock := by
      by_cases hq : q = p
      · subst hq
        exact update_self ..
      · rw [show (s.goto p .lock).pc q = s.pc q from update_of_ne hq ..]
        by_contra hne
        exact hq (h.owned.unique hne hin)
    rw [hlock]
    trivial

/-- What a step prints is due. -/
theorem follows_run (h : Inv s) (hrun : run s p = some s') :
    (turns order).Follows anyStep s.printed s'.printed := by
  cases hpc : s.pc p with
  | print =>
    simp only [run, hpc, Option.some.injEq] at hrun
    subst hrun
    have hpoint := h.points p
    rw [hpc] at hpoint
    exact .of_step p trivial (onTurn_print hpoint.2 hpoint.1).1
  | lock =>
    simp only [run, hpc, Option.ite_none_right_eq_some, Option.some.injEq] at hrun
    obtain ⟨-, rfl⟩ := hrun
    exact .refl ..
  | test | change | unlock =>
    simp only [run, hpc, Option.some.injEq] at hrun
    subst hrun
    exact .refl ..

theorem prefix_exec (h : Inv s) (hrun : system.exec s as = some s') : s.printed <+: s'.printed := by
  induction as generalizing s with
  | nil =>
    cases hrun
    exact List.prefix_rfl
  | cons p as ih =>
    simp only [Lts.exec, Option.bind_eq_some_iff] at hrun
    obtain ⟨t, hstep, hrest⟩ := hrun
    exact (prefix_of_follows (follows_run h hstep)).trans (ih (inv_run h hstep) hrest)

/-- What the next thread to print has done for it. -/
def Pc.rank : Pc → Nat
  | .test => 1
  | .print => 2
  | _ => 0

/-- A step without a print takes the next thread on, or is the other's. -/
theorem rank_run (h : Inv s) (hrun : run s p = some s') (hsame : s'.printed = s.printed) :
    (s.pc (order s.printed.length)).rank + (if p = order s.printed.length then 1 else 0) ≤
      (s'.pc (order s.printed.length)).rank := by
  have hpoint := h.points p
  by_cases hp : p = order s.printed.length
  · rw [if_pos hp, ← hp]
    cases hpc : s.pc p with
    | lock =>
      simp only [run, hpc, Option.ite_none_right_eq_some, Option.some.injEq] at hrun
      obtain ⟨-, rfl⟩ := hrun
      rw [show (s.goto p .test).pc p = .test from update_self ..]
      decide
    | test =>
      rw [hpc] at hpoint
      simp only [run, hpc, Option.some.injEq] at hrun
      subst hrun
      have hnum : s.num = p.num := by rw [hp]; exact hpoint
      rw [if_pos hnum, show (s.goto p .print).pc p = .print from update_self ..]
      decide
    | print =>
      simp only [run, hpc, Option.some.injEq] at hrun
      subst hrun
      simp at hsame
    | change =>
      rw [hpc] at hpoint
      exact absurd ((Side.num_inj.mp hpoint.2).trans hp.symm) p.other_ne
    | unlock =>
      rw [hpc] at hpoint
      have hturn := hpoint.1.symm.trans hpoint.2
      exact absurd ((Side.num_inj.mp hturn).trans hp.symm) p.other_ne
  · have hother : s'.pc (order s.printed.length) = s.pc (order s.printed.length) := by
      have hne : order s.printed.length ≠ p := Ne.symm hp
      cases hpc : s.pc p with
      | lock =>
        simp only [run, hpc, Option.ite_none_right_eq_some, Option.some.injEq] at hrun
        obtain ⟨-, rfl⟩ := hrun
        exact update_of_ne hne ..
      | _ =>
        simp only [run, hpc, Option.some.injEq] at hrun
        subst hrun
        exact update_of_ne hne ..
    rw [if_neg hp, hother]
    exact Nat.le_refl _

theorem exists_run (h : Inv s) : ∃ p s', run s p = some s' := by
  cases howner : s.mutex with
  | none =>
    have hout := h.owned
    rw [howner] at hout
    have hlock : s.pc .A = .lock := not_not.mp (hout.outside .A)
    exact ⟨.A, _, by simp only [run, hlock, howner, if_true]; rfl⟩
  | some p =>
    have hin := (h.owned p).mp howner
    refine ⟨p, ?_⟩
    cases hpc : s.pc p with
    | lock => exact absurd hpc hin
    | _ => exact ⟨_, by simp only [run, hpc]; rfl⟩

theorem rank_exec (h : Inv s) (hrun : system.exec s as = some s') (hsame : s'.printed = s.printed) :
    (s.pc (order s.printed.length)).rank + as.count (order s.printed.length) ≤
      (s'.pc (order s.printed.length)).rank := by
  induction as generalizing s with
  | nil =>
    cases hrun
    exact Nat.le_refl _
  | cons p as ih =>
    simp only [Lts.exec, Option.bind_eq_some_iff] at hrun
    obtain ⟨t, hstep, hrest⟩ := hrun
    have hinv := inv_run h hstep
    have hfirst := prefix_of_follows (follows_run h hstep)
    have hlater := prefix_exec hinv hrest
    have hmid : t.printed = s.printed := by
      rw [hsame] at hlater
      exact hlater.eq_of_length (Nat.le_antisymm hlater.length_le hfirst.length_le)
    have hrank := rank_run h hstep hmid
    have hle := ih hinv hrest (hsame.trans hmid.symm)
    rw [hmid] at hle
    rw [List.count_cons]
    simp only [beq_iff_eq]
    omega

/-- In every run the two print in turn and some thread can go on; the thread whose turn it is
prints with its third step at the latest. -/
theorem poor_prints_in_turn (hrun : system.exec system.init as = some s) :
    s.printed = (List.range s.printed.length).map order ∧ (∃ p s', system.step s p = some s') ∧
      ∀ bs s', system.exec s bs = some s' → 2 < bs.count (order s.printed.length) →
        s'.printed ≠ s.printed := by
  have hreach : system.Reachable anyStep s := Reachable.init.exec hrun
  have hinv : ∀ t, system.Reachable anyStep t → Inv t := fun t ht =>
    ht.invariant inv_init fun _ _ _ h _ hstep => inv_run h hstep
  refine ⟨printed_of_turns ?_, exists_run (hinv s hreach), fun bs s' hbs hcount hsame => ?_⟩
  · exact hreach.map rfl fun t _ _ ht _ _ hstep => follows_run (hinv t ht) hstep
  · have hle := rank_exec (hinv s hreach) hbs hsame
    have hmax : (s'.pc (order s.printed.length)).rank ≤ 2 := by
      cases s'.pc (order s.printed.length) <;> decide
    omega

/-- B polls in vain, and then A and B print. -/
theorem poor_prints_in_turn_two : ∃ as s, system.exec system.init as = some s ∧
    s.printed = [.A, .B] ∧ ∃ p s', system.step s p = some s' := by
  let as : List Side := List.replicate 3 .B ++ List.replicate 5 .A ++ List.replicate 3 .B
  have hrun : (system.exec system.init as).any (fun s => s.printed == [.A, .B]) = true := by
    decide +kernel
  obtain ⟨s, hrun, hprinted⟩ := (Option.any_eq_true _ _).mp hrun
  rw [beq_iff_eq] at hprinted
  exact ⟨as, s, hrun, hprinted, (poor_prints_in_turn hrun).2.1⟩

end Poor

end DdsAuto.Concurrent.PingPong
