import DdsAuto.Lib.Lts
import DdsAuto.Lib.Mutex
import DdsAuto.Lib.Threads
import Mathlib.Data.Fintype.Basic

/-!
# `prodcons6`: producers that signal one consumer

Any number of threads run `produce` and one runs `consume`. Items are stored
under `put.mutex` and counted under `nready.mutex`, so another producer may count
its item first; a count then stands for some item, and the items that are
counted are never more than those stored, from index 0 on.

A producer signals only where it finds `nready` at 0, before it adds to it. Only
the consumer waits, and it goes to sleep at 0, so while it sleeps the next
producer to count an item is one that signals.
-/

namespace DdsAuto.Mutex.Prodcons6

open Lts Function Threads

def MAXNITEMS : Nat := 1000000

inductive Thread (P : Type)
  | produce (p : P)
  | consume
  deriving DecidableEq, Repr

/-- Where `produce` is: before the operation named. `unlockFull` is the unlock
before its return. -/
inductive ProducePc
  | lockPut
  | put
  | unlockFull
  | unlockPut
  | lockReady
  | test
  | signal
  | add
  | unlockReady
  | tally
  | returned
  deriving DecidableEq, Repr

/-- Where `consume` is. In `pthread_cond_wait` it sleeps until it is signalled or
comes back without a signal, and then takes the mutex again. -/
inductive ConsumePc
  | next
  | lock
  | test
  | asleep
  | signalled
  | awake
  | take
  | unlock
  | check
  | returned
  deriving DecidableEq, Repr

structure Put (P : Type) where
  mutex : Option P
  nput : Nat
  nval : Nat

structure Nready (P : Type) where
  mutex : Option (Thread P)
  nready : Nat

/-- `written` records the indices stored to, `reads` what `consume` finds in
`buff`, `printed` its lines. -/
structure State (P : Type) where
  put : Put P
  nready : Nready P
  buff : Nat → Nat
  producer : P → ProducePc
  count : P → Nat
  consumer : ConsumePc
  i : Nat
  written : List Nat
  reads : List Nat
  printed : List String

inductive Label (P : Type)
  | produce (p : P)
  | consume
  | spurious
  deriving DecidableEq

/-- `pthread_cond_signal`: only the consumer ever waits. -/
def ConsumePc.signal : ConsumePc → ConsumePc
  | .asleep => .signalled
  | pc => pc

variable {P : Type} [DecidableEq P]

def State.goto (s : State P) (p : P) (pc : ProducePc) : State P :=
  { s with producer := update s.producer p pc }

/-- The next step of `produce`; `none` where it is blocked or has returned. -/
def produce (nitems : Nat) (s : State P) (p : P) : Option (State P) :=
  match s.producer p with
  | .lockPut =>
    if s.put.mutex = none then some { s.goto p .put with put.mutex := some p } else none
  | .put =>
    if s.put.nput ≥ nitems then some (s.goto p .unlockFull)
    else
      some { s.goto p .unlockPut with
        buff := update s.buff s.put.nput s.put.nval
        put.nput := s.put.nput + 1
        put.nval := s.put.nval + 1
        written := s.written ++ [s.put.nput] }
  | .unlockFull => some { s.goto p .returned with put.mutex := none }
  | .unlockPut => some { s.goto p .lockReady with put.mutex := none }
  | .lockReady =>
    if s.nready.mutex = none then
      some { s.goto p .test with nready.mutex := some (.produce p) }
    else none
  | .test => some (s.goto p (if s.nready.nready = 0 then .signal else .add))
  | .signal => some { s.goto p .add with consumer := s.consumer.signal }
  | .add => some { s.goto p .unlockReady with nready.nready := s.nready.nready + 1 }
  | .unlockReady => some { s.goto p .tally with nready.mutex := none }
  | .tally => some { s.goto p .lockPut with count := update s.count p (s.count p + 1) }
  | .returned => none

/-- The consumer looks at the item of its index. -/
def State.check (s : State P) : State P :=
  { s with
    consumer := .next
    i := s.i + 1
    reads := s.reads ++ [s.buff s.i]
    printed :=
      if s.buff s.i ≠ s.i then s.printed ++ [s!"buff[{s.i}] = {s.buff s.i}\n"] else s.printed }

/-- The next step of `consume`. -/
def consume (nitems : Nat) (s : State P) : Option (State P) :=
  match s.consumer with
  | .next => some { s with consumer := if s.i < nitems then .lock else .returned }
  | .lock | .signalled | .awake =>
    if s.nready.mutex = none then
      some { s with consumer := .test, nready.mutex := some .consume }
    else none
  | .test =>
    if s.nready.nready = 0 then some { s with consumer := .asleep, nready.mutex := none }
    else some { s with consumer := .take }
  | .asleep | .returned => none
  | .take => some { s with consumer := .unlock, nready.nready := s.nready.nready - 1 }
  | .unlock => some { s with consumer := .check, nready.mutex := none }
  | .check => some s.check

def step (nitems : Nat) (s : State P) : Label P → Option (State P)
  | .produce p => produce nitems s p
  | .consume => consume nitems s
  | .spurious => if s.consumer = .asleep then some { s with consumer := .awake } else none

/-- The threads `main` creates. -/
def system (P : Type) [DecidableEq P] (nitems : Nat) : Lts (State P) (Label P) where
  init := ⟨⟨none, 0, 0⟩, ⟨none, 0⟩, fun _ => 0, fun _ => .lockPut, fun _ => 0, .next, 0, [], [], []⟩
  step := step nitems

/-- Every thread has returned. -/
def State.AllReturned (s : State P) : Prop :=
  (∀ p, s.producer p = .returned) ∧ s.consumer = .returned

-- ---------------------------------------------------------------------------
-- The accounts
-- ---------------------------------------------------------------------------

def ProducePc.InPut : ProducePc → Prop
  | .put | .unlockFull | .unlockPut => True
  | _ => False

def ProducePc.InReady : ProducePc → Prop
  | .test | .signal | .add | .unlockReady => True
  | _ => False

def ConsumePc.InReady : ConsumePc → Prop
  | .test | .take | .unlock => True
  | _ => False

/-- The thread holds `nready.mutex`. -/
def InReady (producer : P → ProducePc) (consumer : ConsumePc) : Thread P → Prop
  | .produce p => (producer p).InReady
  | .consume => consumer.InReady

/-- It has stored an item and not added it to `nready`. -/
def ProducePc.owes : ProducePc → Nat
  | .unlockPut | .lockReady | .test | .signal | .add => 1
  | _ => 0

/-- It has stored an item and not counted it for itself. -/
def ProducePc.untallied : ProducePc → Nat
  | .unlockPut | .lockReady | .test | .signal | .add | .unlockReady | .tally => 1
  | _ => 0

/-- It has seen that every item is stored. -/
def ProducePc.Leaving : ProducePc → Prop
  | .unlockFull | .returned => True
  | _ => False

/-- It has taken an item off `nready` and not looked at it. -/
def ConsumePc.holds : ConsumePc → Nat
  | .unlock | .check => 1
  | _ => 0

/-- What the consumer knows at each point. -/
def ConsumeOk (nitems i nready : Nat) (producer : P → ProducePc) : ConsumePc → Prop
  | .next => i ≤ nitems
  | .returned => i = nitems
  | .take => i < nitems ∧ 0 < nready
  | .asleep => i < nitems ∧ nready = 0 ∧ ∀ p, producer p ≠ .add
  | .lock | .test | .signalled | .awake | .unlock | .check => i < nitems

variable [Fintype P]

structure Inv (nitems : Nat) (s : State P) : Prop where
  put : Owned s.put.mutex fun p => (s.producer p).InPut
  ready : Owned s.nready.mutex (InReady s.producer s.consumer)
  posted : s.nready.nready + s.i + s.consumer.holds + total ProducePc.owes s.producer = s.put.nput
  tallied : total id s.count + total ProducePc.untallied s.producer = s.put.nput
  put_le : s.put.nput ≤ nitems
  nval : s.put.nval = s.put.nput
  full : ∀ p, (s.producer p).Leaving → s.put.nput = nitems
  consumer : ConsumeOk nitems s.i s.nready.nready s.producer s.consumer
  written : s.written = List.range s.put.nput
  buff : ∀ k, k < s.put.nput → s.buff k = k
  reads : s.reads = List.range s.i
  printed : s.printed = []

variable {nitems : Nat} {s s' : State P} {p : P} {pc : ProducePc} {cpc : ConsumePc}
variable {producer : P → ProducePc} {t : Thread P}

-- ---------------------------------------------------------------------------
-- `nready.mutex`
-- ---------------------------------------------------------------------------

omit [Fintype P] in
theorem inReady_produce (hne : t ≠ .produce p) :
    InReady (update producer p pc) cpc t ↔ InReady producer cpc t := by
  cases t with
  | consume => exact Iff.rfl
  | produce q =>
    have hq : q ≠ p := by
      rintro rfl
      exact hne rfl
    simp only [InReady, update_of_ne hq]

omit [Fintype P] [DecidableEq P] in
theorem inReady_consume (hne : t ≠ .consume) (cpc' : ConsumePc) :
    InReady producer cpc' t ↔ InReady producer cpc t := by
  cases t with
  | consume => exact absurd rfl hne
  | produce q => exact Iff.rfl

omit [Fintype P] in
theorem ready_keep (h : Owned owner (InReady producer cpc))
    (hsame : pc.InReady ↔ (producer p).InReady) :
    Owned owner (InReady (update producer p pc) cpc) := by
  refine h.keep fun t => ?_
  by_cases ht : t = .produce p
  · subst ht
    simpa only [InReady, update_self] using hsame
  · exact inReady_produce ht

omit [Fintype P] in
theorem ready_acquire (h : Owned none (InReady producer cpc)) (hpc : pc.InReady) :
    Owned (some (.produce p)) (InReady (update producer p pc) cpc) :=
  h.acquire (by simpa only [InReady, update_self] using hpc) fun _ hne => inReady_produce hne

omit [Fintype P] in
theorem ready_release (h : Owned owner (InReady producer cpc)) (hin : (producer p).InReady)
    (hpc : ¬ pc.InReady) : Owned none (InReady (update producer p pc) cpc) :=
  h.release (t := .produce p) hin (by simpa only [InReady, update_self] using hpc)
    fun _ hne => inReady_produce hne

-- ---------------------------------------------------------------------------
-- One producer moves
-- ---------------------------------------------------------------------------

omit [Fintype P] in
/-- A producer leaves what the consumer knows alone, unless it is about to add to
`nready` while the consumer sleeps. -/
theorem ConsumeOk.goto (h : ConsumeOk nitems i n producer cpc) (hadd : pc = .add → cpc ≠ .asleep) :
    ConsumeOk nitems i n (update producer p pc) cpc := by
  cases cpc with
  | asleep =>
    obtain ⟨hlt, hzero, hnone⟩ := h
    exact ⟨hlt, hzero, (forall_update_iff producer fun _ q => q ≠ .add).mpr
      ⟨fun hpc => hadd hpc rfl, fun q _ => hnone q⟩⟩
  | _ => exact h

omit [Fintype P] [DecidableEq P] in
/-- An item more on `nready` matters only to a consumer asleep. -/
theorem ConsumeOk.add (h : ConsumeOk nitems i n producer cpc) (hawake : cpc ≠ .asleep) :
    ConsumeOk nitems i (n + 1) producer cpc := by
  cases cpc with
  | asleep => exact absurd rfl hawake
  | take => exact ⟨h.1, Nat.succ_pos n⟩
  | _ => exact h

/-- A producer's step that stores, adds and counts nothing. -/
theorem Inv.move (h : Inv nitems s) (hput : Owned pm fun q => (update s.producer p pc q).InPut)
    (hready : Owned rm (InReady (update s.producer p pc) s.consumer))
    (howes : (s.producer p).owes = pc.owes) (htally : (s.producer p).untallied = pc.untallied)
    (hfull : pc.Leaving → s.put.nput = nitems) (hadd : pc = .add → s.consumer ≠ .asleep) :
    Inv nitems { s.goto p pc with put.mutex := pm, nready.mutex := rm } where
  put := hput
  ready := hready
  posted := by
    have hold := h.posted
    rw [← total_update_eq ProducePc.owes s.producer p pc howes] at hold
    exact hold
  tallied := by
    have hold := h.tallied
    rw [← total_update_eq ProducePc.untallied s.producer p pc htally] at hold
    exact hold
  put_le := h.put_le
  nval := h.nval
  full := (forall_update_iff s.producer fun _ q => q.Leaving → s.put.nput = nitems).mpr
    ⟨hfull, fun q _ => h.full q⟩
  consumer := h.consumer.goto hadd
  written := h.written
  buff := h.buff
  reads := h.reads
  printed := h.printed

/-- The item goes to the first index not yet stored to. -/
theorem Inv.store (h : Inv nitems s) (hp : s.producer p = .put) (hleft : s.put.nput < nitems) :
    Inv nitems { s.goto p .unlockPut with
      buff := update s.buff s.put.nput s.put.nval
      put.nput := s.put.nput + 1
      put.nval := s.put.nval + 1
      written := s.written ++ [s.put.nput] } where
  put := h.put.keep_update ProducePc.InPut (iff_of_true trivial (by rw [hp]; trivial))
  ready := ready_keep h.ready (iff_of_false id (by rw [hp]; exact id))
  posted := by
    have hold := h.posted
    have hw := total_update ProducePc.owes s.producer p .unlockPut
    simp only [hp, ProducePc.owes] at hw
    show s.nready.nready + s.i + s.consumer.holds +
      total ProducePc.owes (update s.producer p .unlockPut) = s.put.nput + 1
    omega
  tallied := by
    have hold := h.tallied
    have hw := total_update ProducePc.untallied s.producer p .unlockPut
    simp only [hp, ProducePc.untallied] at hw
    show total id s.count + total ProducePc.untallied (update s.producer p .unlockPut) =
      s.put.nput + 1
    omega
  put_le := hleft
  nval := congrArg (· + 1) h.nval
  full := (forall_update_iff s.producer fun _ q => q.Leaving → s.put.nput + 1 = nitems).mpr
    ⟨fun hleave => hleave.elim, fun q _ hq => absurd (h.full q hq) (Nat.ne_of_lt hleft)⟩
  consumer := h.consumer.goto nofun
  written := by
    show s.written ++ [s.put.nput] = List.range (s.put.nput + 1)
    rw [h.written, List.range_succ]
  buff k hk := by
    show update s.buff s.put.nput s.put.nval k = k
    by_cases heq : k = s.put.nput
    · rw [heq, update_self, h.nval]
    · rw [update_of_ne heq]
      exact h.buff k (Nat.lt_of_le_of_ne (Nat.le_of_lt_succ hk) heq)
  reads := h.reads
  printed := h.printed

omit [DecidableEq P] in
/-- The consumer's steps up to the look at the item. -/
theorem Inv.consumeMove (h : Inv nitems s) (hready : Owned rm (InReady s.producer cpc))
    (hheld : n + cpc.holds = s.nready.nready + s.consumer.holds)
    (hok : ConsumeOk nitems s.i n s.producer cpc) :
    Inv nitems { s with consumer := cpc, nready := ⟨rm, n⟩ } where
  put := h.put
  ready := hready
  posted := by
    have hold := h.posted
    show n + s.i + cpc.holds + total ProducePc.owes s.producer = s.put.nput
    omega
  tallied := h.tallied
  put_le := h.put_le
  nval := h.nval
  full := h.full
  consumer := hok
  written := h.written
  buff := h.buff
  reads := h.reads
  printed := h.printed

omit [DecidableEq P] in
theorem Inv.wake (h : Inv nitems s) (hasleep : s.consumer = .asleep)
    (hcpc : cpc = .signalled ∨ cpc = .awake) : Inv nitems { s with consumer := cpc } := by
  have hok := h.consumer
  rw [hasleep] at hok
  have hready : Owned s.nready.mutex (InReady s.producer cpc) := h.ready.keep fun t => by
    cases t with
    | consume => rcases hcpc with rfl | rfl <;> rw [hasleep] <;> exact Iff.rfl
    | produce p => exact Iff.rfl
  refine h.consumeMove hready ?_ ?_
  · rcases hcpc with rfl | rfl <;> rw [hasleep] <;> rfl
  · rcases hcpc with rfl | rfl <;> exact hok.1

/-- The signal reaches the consumer if it sleeps, so it does not when the item is added. -/
theorem Inv.signal (h : Inv nitems s) (hp : s.producer p = .signal) :
    Inv nitems { s.goto p .add with consumer := s.consumer.signal } := by
  have hin : (s.producer p).InReady := by rw [hp]; trivial
  have hwoken : Inv nitems { s with consumer := s.consumer.signal } ∧
      s.consumer.signal ≠ .asleep := by
    cases hc : s.consumer with
    | asleep => exact ⟨h.wake hc (.inl rfl), nofun⟩
    | _ =>
      refine ⟨?_, nofun⟩
      simp only [ConsumePc.signal, ← hc]
      exact h
  exact hwoken.1.move (h.put.keep_update ProducePc.InPut (iff_of_false id (by rw [hp]; exact id)))
    (ready_keep hwoken.1.ready (iff_of_true trivial hin)) (by rw [hp]; rfl) (by rw [hp]; rfl)
    (fun hleave => hleave.elim) fun _ => hwoken.2

/-- The item is there for the consumer to take. -/
theorem Inv.add (h : Inv nitems s) (hp : s.producer p = .add) :
    Inv nitems { s.goto p .unlockReady with nready.nready := s.nready.nready + 1 } where
  put := h.put.keep_update ProducePc.InPut (iff_of_false id (by rw [hp]; exact id))
  ready := ready_keep h.ready (iff_of_true trivial (by rw [hp]; trivial))
  posted := by
    have hold := h.posted
    have hw := total_update ProducePc.owes s.producer p .unlockReady
    simp only [hp, ProducePc.owes] at hw
    show s.nready.nready + 1 + s.i + s.consumer.holds +
      total ProducePc.owes (update s.producer p .unlockReady) = s.put.nput
    omega
  tallied := by
    have hold := h.tallied
    rw [← total_update_eq ProducePc.untallied s.producer p .unlockReady (by rw [hp]; rfl)] at hold
    exact hold
  put_le := h.put_le
  nval := h.nval
  full := (forall_update_iff s.producer fun _ q => q.Leaving → s.put.nput = nitems).mpr
    ⟨fun hleave => hleave.elim, fun q _ => h.full q⟩
  consumer := by
    have hgoto : ConsumeOk nitems s.i s.nready.nready (update s.producer p .unlockReady)
        s.consumer := h.consumer.goto nofun
    refine hgoto.add fun hasleep => ?_
    have hok := h.consumer
    rw [hasleep] at hok
    exact hok.2.2 p hp
  written := h.written
  buff := h.buff
  reads := h.reads
  printed := h.printed

theorem Inv.tally (h : Inv nitems s) (hp : s.producer p = .tally) :
    Inv nitems { s.goto p .lockPut with count := update s.count p (s.count p + 1) } where
  put := h.put.keep_update ProducePc.InPut (iff_of_false id (by rw [hp]; exact id))
  ready := ready_keep h.ready (iff_of_false id (by rw [hp]; exact id))
  posted := by
    have hold := h.posted
    rw [← total_update_eq ProducePc.owes s.producer p .lockPut (by rw [hp]; rfl)] at hold
    exact hold
  tallied := by
    have hold := h.tallied
    have hw := total_update ProducePc.untallied s.producer p .lockPut
    have hcount := total_update id s.count p (s.count p + 1)
    simp only [hp, ProducePc.untallied, id] at hw hcount
    show total id (update s.count p (s.count p + 1)) +
      total ProducePc.untallied (update s.producer p .lockPut) = s.put.nput
    omega
  put_le := h.put_le
  nval := h.nval
  full := (forall_update_iff s.producer fun _ q => q.Leaving → s.put.nput = nitems).mpr
    ⟨fun hleave => hleave.elim, fun q _ => h.full q⟩
  consumer := h.consumer.goto nofun
  written := h.written
  buff := h.buff
  reads := h.reads
  printed := h.printed

theorem Inv.produce (h : Inv nitems s) (hstep : produce nitems s p = some s') : Inv nitems s' := by
  have hkeepPut {pc : ProducePc} (hp : ¬ (s.producer p).InPut) (hpc : ¬ pc.InPut) :
      Owned s.put.mutex fun q => (update s.producer p pc q).InPut :=
    h.put.keep_update ProducePc.InPut (iff_of_false hpc hp)
  have hkeepReady {pc : ProducePc} (hp : ¬ (s.producer p).InReady) (hpc : ¬ pc.InReady) :
      Owned s.nready.mutex (InReady (update s.producer p pc) s.consumer) :=
    ready_keep h.ready (iff_of_false hpc hp)
  unfold Prodcons6.produce at hstep
  cases hp : s.producer p with
  | lockPut =>
    simp only [hp, Option.ite_none_right_eq_some, Option.some.injEq] at hstep
    obtain ⟨hfree, rfl⟩ := hstep
    exact h.move ((hfree ▸ h.put).acquire_update ProducePc.InPut trivial)
      (hkeepReady (by rw [hp]; exact id) id) (by rw [hp]; rfl) (by rw [hp]; rfl)
      (fun hleave => hleave.elim) nofun
  | put =>
    simp only [hp] at hstep
    split at hstep
    · rename_i hall
      cases hstep
      exact h.move (h.put.keep_update ProducePc.InPut (iff_of_true trivial (by rw [hp]; trivial)))
        (hkeepReady (by rw [hp]; exact id) id) (by rw [hp]; rfl) (by rw [hp]; rfl)
        (fun _ => Nat.le_antisymm h.put_le hall) nofun
    · rename_i hleft
      cases hstep
      exact h.store hp (Nat.lt_of_not_le hleft)
  | unlockFull =>
    simp only [hp, Option.some.injEq] at hstep
    subst hstep
    exact h.move (h.put.release_update ProducePc.InPut (by rw [hp]; trivial) id)
      (hkeepReady (by rw [hp]; exact id) id) (by rw [hp]; rfl) (by rw [hp]; rfl)
      (fun _ => h.full p (by rw [hp]; trivial)) nofun
  | unlockPut =>
    simp only [hp, Option.some.injEq] at hstep
    subst hstep
    exact h.move (h.put.release_update ProducePc.InPut (by rw [hp]; trivial) id)
      (hkeepReady (by rw [hp]; exact id) id) (by rw [hp]; rfl) (by rw [hp]; rfl)
      (fun hleave => hleave.elim) nofun
  | lockReady =>
    simp only [hp, Option.ite_none_right_eq_some, Option.some.injEq] at hstep
    obtain ⟨hfree, rfl⟩ := hstep
    exact h.move (hkeepPut (by rw [hp]; exact id) id) (ready_acquire (hfree ▸ h.ready) trivial)
      (by rw [hp]; rfl) (by rw [hp]; rfl) (fun hleave => hleave.elim) nofun
  | test =>
    simp only [hp, Option.some.injEq] at hstep
    subst hstep
    have hin : (s.producer p).InReady := by rw [hp]; trivial
    by_cases hzero : s.nready.nready = 0
    · rw [if_pos hzero]
      exact h.move (hkeepPut (by rw [hp]; exact id) id)
        (ready_keep h.ready (iff_of_true trivial hin)) (by rw [hp]; rfl) (by rw [hp]; rfl)
        (fun hleave => hleave.elim) nofun
    · rw [if_neg hzero]
      refine h.move (hkeepPut (by rw [hp]; exact id) id)
        (ready_keep h.ready (iff_of_true trivial hin)) (by rw [hp]; rfl) (by rw [hp]; rfl)
        (fun hleave => hleave.elim) fun _ hasleep => ?_
      -- There is no signal, but the consumer does not sleep above 0.
      have hok := h.consumer
      rw [hasleep] at hok
      exact hzero hok.2.1
  | signal =>
    simp only [hp, Option.some.injEq] at hstep
    exact hstep ▸ h.signal hp
  | add =>
    simp only [hp, Option.some.injEq] at hstep
    exact hstep ▸ h.add hp
  | unlockReady =>
    simp only [hp, Option.some.injEq] at hstep
    subst hstep
    exact h.move (hkeepPut (by rw [hp]; exact id) id)
      (ready_release h.ready (by rw [hp]; trivial) id) (by rw [hp]; rfl) (by rw [hp]; rfl)
      (fun hleave => hleave.elim) nofun
  | tally =>
    simp only [hp, Option.some.injEq] at hstep
    exact hstep ▸ h.tally hp
  | returned =>
    simp only [hp] at hstep
    cases hstep

-- ---------------------------------------------------------------------------
-- The consumer moves
-- ---------------------------------------------------------------------------

omit [DecidableEq P] in
theorem Inv.lock (h : Inv nitems s) (hfree : s.nready.mutex = none) (hlt : s.i < nitems)
    (hheld : s.consumer.holds = 0) :
    Inv nitems { s with consumer := .test, nready.mutex := some .consume } :=
  h.consumeMove ((hfree ▸ h.ready).acquire trivial fun _ hne => inReady_consume hne .test)
    (by rw [hheld]; rfl) hlt

omit [DecidableEq P] in
/-- The item taken is stored, and at its index. -/
theorem Inv.check (h : Inv nitems s) (hc : s.consumer = .check) : Inv nitems s.check := by
  have hposted := h.posted
  rw [hc] at hposted
  have hlt : s.i < s.put.nput := by
    simp only [ConsumePc.holds] at hposted
    omega
  have hitem := h.buff s.i hlt
  refine ⟨h.put, ?_, ?_, h.tallied, h.put_le, h.nval, h.full, ?_, h.written, h.buff, ?_, ?_⟩
  · refine h.ready.keep fun t => ?_
    cases t with
    | consume => rw [hc]; exact Iff.rfl
    | produce p => exact Iff.rfl
  · show s.nready.nready + (s.i + 1) + 0 + total ProducePc.owes s.producer = s.put.nput
    simp only [ConsumePc.holds] at hposted
    omega
  · exact Nat.le_trans hlt h.put_le
  · show s.reads ++ [s.buff s.i] = List.range (s.i + 1)
    rw [hitem, h.reads, List.range_succ]
  · show (if s.buff s.i ≠ s.i then _ else _) = _
    rw [if_neg (not_not.mpr hitem)]
    exact h.printed

omit [DecidableEq P] in
theorem Inv.consume (h : Inv nitems s) (hstep : consume nitems s = some s') : Inv nitems s' := by
  have hok := h.consumer
  unfold Prodcons6.consume at hstep
  cases hc : s.consumer with
  | next =>
    rw [hc] at hok
    simp only [hc, Option.some.injEq] at hstep
    subst hstep
    have hready (cpc : ConsumePc) (hout : ¬ cpc.InReady) :
        Owned s.nready.mutex (InReady s.producer cpc) := h.ready.keep fun t => by
      cases t with
      | consume => exact iff_of_false hout (by rw [InReady, hc]; exact id)
      | produce p => exact Iff.rfl
    by_cases hlt : s.i < nitems
    · rw [if_pos hlt]
      exact h.consumeMove (hready .lock id) (by rw [hc]; rfl) hlt
    · rw [if_neg hlt]
      exact h.consumeMove (hready .returned id) (by rw [hc]; rfl)
        (Nat.le_antisymm hok (Nat.le_of_not_lt hlt))
  | lock | signalled | awake =>
    rw [hc] at hok
    simp only [hc, Option.ite_none_right_eq_some, Option.some.injEq] at hstep
    obtain ⟨hfree, rfl⟩ := hstep
    exact h.lock hfree hok (by rw [hc]; rfl)
  | test =>
    rw [hc] at hok
    have hin : InReady s.producer s.consumer .consume := by rw [InReady, hc]; trivial
    simp only [hc] at hstep
    split at hstep
    · rename_i hzero
      cases hstep
      refine h.consumeMove (h.ready.release hin id fun _ hne => inReady_consume hne .asleep)
        (by rw [hc]; rfl) ⟨hok, hzero, fun p hp => ?_⟩
      -- A producer about to add would hold the mutex too.
      have hp' : InReady s.producer s.consumer (.produce p) := by rw [InReady, hp]; trivial
      cases h.ready.unique hin hp'
    · rename_i hpos
      cases hstep
      refine h.consumeMove (h.ready.keep fun t => ?_) (by rw [hc]; rfl)
        ⟨hok, Nat.pos_of_ne_zero hpos⟩
      cases t with
      | consume => exact iff_of_true trivial hin
      | produce p => exact Iff.rfl
  | take =>
    rw [hc] at hok
    simp only [hc, Option.some.injEq] at hstep
    subst hstep
    refine h.consumeMove (h.ready.keep fun t => ?_) ?_ hok.1
    · cases t with
      | consume => exact iff_of_true trivial (by rw [InReady, hc]; trivial)
      | produce p => exact Iff.rfl
    · rw [hc]
      exact Nat.sub_add_cancel hok.2
  | unlock =>
    rw [hc] at hok
    simp only [hc, Option.some.injEq] at hstep
    subst hstep
    exact h.consumeMove (h.ready.release (t := .consume) (by rw [InReady, hc]; trivial) id
      fun _ hne => inReady_consume hne .check) (by rw [hc]; rfl) hok
  | check =>
    simp only [hc, Option.some.injEq] at hstep
    exact hstep ▸ h.check hc
  | asleep | returned =>
    simp only [hc] at hstep
    cases hstep

theorem Inv.step (h : Inv nitems s) (hstep : step nitems s a = some s') : Inv nitems s' := by
  cases a with
  | produce p => exact h.produce hstep
  | consume => exact h.consume hstep
  | spurious =>
    simp only [Prodcons6.step, Option.ite_none_right_eq_some, Option.some.injEq] at hstep
    obtain ⟨hasleep, rfl⟩ := hstep
    exact h.wake hasleep (.inr rfl)

theorem inv_init (nitems : Nat) : Inv nitems (system P nitems).init where
  put _ := iff_of_false nofun id
  ready t := iff_of_false nofun (by cases t <;> exact id)
  posted := by
    rw [total_eq_zero (w := ProducePc.owes) fun _ => rfl]
    rfl
  tallied := by
    have hcount : total id (system P nitems).init.count = 0 := total_eq_zero fun _ => rfl
    rw [total_eq_zero (w := ProducePc.untallied) fun _ => rfl, hcount]
    rfl
  put_le := Nat.zero_le _
  nval := rfl
  full _ hleave := hleave.elim
  consumer := Nat.zero_le _
  written := rfl
  buff k hk := absurd hk (Nat.not_lt_zero k)
  reads := rfl
  printed := rfl

theorem reachable_inv (h : (system P nitems).Reachable anyStep s) : Inv nitems s :=
  h.invariant (inv_init nitems) fun _ _ _ hs _ hstep => hs.step hstep

-- ---------------------------------------------------------------------------
-- No deadlock
-- ---------------------------------------------------------------------------

omit [Fintype P] in
/-- A producer blocks on the two mutexes only. -/
theorem produce_moves (s : State P) (p : P) (hret : s.producer p ≠ .returned)
    (hput : s.producer p = .lockPut → s.put.mutex = none)
    (hready : s.producer p = .lockReady → s.nready.mutex = none) :
    (produce nitems s p).isSome = true := by
  unfold produce
  cases hp : s.producer p with
  | lockPut => simp only [if_pos (hput hp), Option.isSome_some]
  | lockReady => simp only [if_pos (hready hp), Option.isSome_some]
  | put => by_cases hall : s.put.nput ≥ nitems <;> simp [hall]
  | returned => exact absurd hp hret
  | _ => rfl

omit [DecidableEq P] [Fintype P] in
theorem consume_moves (s : State P) (hret : s.consumer ≠ .returned) (hawake : s.consumer ≠ .asleep)
    (hready : ¬ s.consumer.InReady → s.nready.mutex = none) :
    (consume nitems s).isSome = true := by
  unfold consume
  cases hc : s.consumer with
  | lock | signalled | awake =>
    rw [hc] at hready
    simp only [if_pos (hready id), Option.isSome_some]
  | test => by_cases hzero : s.nready.nready = 0 <;> simp [hzero]
  | asleep => exact absurd hc hawake
  | returned => exact absurd hc hret
  | _ => rfl

/-- No thread can move, unless the consumer wakes up without a signal. -/
def State.Stuck (nitems : Nat) (s : State P) : Prop := ∀ a, a ≠ .spurious → step nitems s a = none

omit [Fintype P] in
theorem State.Stuck.produce (h : s.Stuck nitems) (p : P) :
    ¬ (Prodcons6.produce nitems s p).isSome = true := by
  have hnone : Prodcons6.produce nitems s p = none := h (.produce p) nofun
  rw [hnone]
  exact nofun

omit [Fintype P] in
theorem State.Stuck.consume (h : s.Stuck nitems) :
    ¬ (Prodcons6.consume nitems s).isSome = true := by
  have hnone : Prodcons6.consume nitems s = none := h .consume nofun
  rw [hnone]
  exact nofun

/-- Where nothing moves, both mutexes are free: whoever holds one can go on. -/
theorem Inv.free_of_stuck (h : Inv nitems s) (hstuck : s.Stuck nitems) :
    s.put.mutex = none ∧ s.nready.mutex = none := by
  constructor
  · by_contra howner
    obtain ⟨p, hp⟩ := Option.ne_none_iff_exists'.mp howner
    have hin : (s.producer p).InPut := (h.put p).mp hp
    refine hstuck.produce p (produce_moves s p ?_ ?_ ?_) <;> intro hpc <;> rw [hpc] at hin <;>
      exact hin.elim
  · by_contra howner
    obtain ⟨t, ht⟩ := Option.ne_none_iff_exists'.mp howner
    have hin := (h.ready t).mp ht
    cases t with
    | produce p =>
      refine hstuck.produce p (produce_moves s p ?_ ?_ ?_) <;> intro hpc <;>
        rw [InReady, hpc] at hin <;> exact hin.elim
    | consume =>
      refine hstuck.consume (consume_moves s ?_ ?_ fun hout => absurd hin hout) <;> intro hc <;>
        rw [InReady, hc] at hin <;> exact hin.elim

/-- Every producer has returned, and the consumer has returned or sleeps. -/
theorem Inv.points_of_stuck (h : Inv nitems s) (hstuck : s.Stuck nitems) :
    (∀ p, s.producer p = .returned) ∧ (s.consumer = .returned ∨ s.consumer = .asleep) := by
  obtain ⟨hput, hready⟩ := h.free_of_stuck hstuck
  constructor
  · intro p
    by_contra hret
    exact hstuck.produce p (produce_moves s p hret (fun _ => hput) fun _ => hready)
  · by_contra hnot
    push Not at hnot
    exact hstuck.consume (consume_moves s hnot.1 hnot.2 fun _ => hready)

/-- With every item stored and counted, the consumer does not sleep. -/
theorem Inv.not_stuck [Nonempty P] (h : Inv nitems s) (hret : ¬ s.AllReturned) :
    ∃ a s', a ≠ .spurious ∧ Prodcons6.step nitems s a = some s' := by
  by_contra hnone
  have hstuck : s.Stuck nitems := by
    intro a ha
    by_contra hsome
    obtain ⟨s', hs'⟩ := Option.ne_none_iff_exists'.mp hsome
    exact hnone ⟨a, s', ha, hs'⟩
  obtain ⟨hall, hc | hc⟩ := h.points_of_stuck hstuck
  · exact hret ⟨hall, hc⟩
  · obtain ⟨p⟩ := ‹Nonempty P›
    have hfull := h.full p (by rw [hall p]; trivial)
    have hok := h.consumer
    have hposted := h.posted
    rw [total_eq_zero (w := ProducePc.owes) fun p => by rw [hall p]; rfl, hc] at hposted
    rw [hc] at hok
    obtain ⟨hlt, hzero, -⟩ := hok
    simp only [ConsumePc.holds] at hposted
    omega

-- ---------------------------------------------------------------------------
-- Every run
-- ---------------------------------------------------------------------------

/-- What a state of a run with `nitems` items satisfies. -/
structure Correct (nitems : Nat) (s : State P) : Prop where
  inOrder : s.reads = List.range s.reads.length
  noErrors : s.printed = []
  /-- The index about to be stored to is inside `buff`. -/
  inBounds : ∀ p, s.producer p = .put → s.put.nput < nitems → s.put.nput < MAXNITEMS
  once : s.written <+: List.range nitems
  signalled : s.consumer = .asleep → s.nready.nready = 0
  noDeadlock : ¬ s.AllReturned → ∃ a s', a ≠ .spurious ∧ step nitems s a = some s'
  complete : s.AllReturned → s.written = List.range nitems ∧ s.reads = List.range nitems ∧
    ∑ p, s.count p = nitems

theorem prodcons6_correct [Nonempty P] (nitems : Nat) (hmax : nitems ≤ MAXNITEMS) (s : State P)
    (h : (system P nitems).Reachable anyStep s) : Correct nitems s := by
  have hinv := reachable_inv h
  refine ⟨?_, hinv.printed, fun _ _ hlt => Nat.lt_of_lt_of_le hlt hmax, ?_, fun hasleep => ?_,
    hinv.not_stuck, ?_⟩
  · rw [hinv.reads, List.length_range]
  · rw [hinv.written, ← Nat.min_eq_left hinv.put_le, ← List.take_range]
    exact List.take_prefix _ _
  · have hok := hinv.consumer
    rw [hasleep] at hok
    exact hok.2.1
  · rintro ⟨hproducers, hc⟩
    obtain ⟨p⟩ := ‹Nonempty P›
    have hfull := hinv.full p (by rw [hproducers p]; trivial)
    have hok := hinv.consumer
    rw [hc] at hok
    have hi : s.i = nitems := hok
    have htallied := hinv.tallied
    rw [total_eq_zero (w := ProducePc.untallied) fun p => by rw [hproducers p]; rfl,
      hfull] at htallied
    exact ⟨by rw [hinv.written, hfull], by rw [hinv.reads, hi], htallied⟩

/-- Of two producers the second counts its item first, and it is the item of the
first that the consumer looks at. -/
theorem prodcons6_correct_two : ∃ s : State (Fin 2), (s.reads == [0]) = true ∧
    s.producer 0 = .lockReady ∧ Correct 3 s := by
  obtain ⟨s, hs, hend⟩ := reachable_of_exec (system (Fin 2) 3)
    ([.consume, .consume, .consume] ++ List.replicate 3 (.produce 0) ++
      List.replicate 8 (.produce 1) ++ List.replicate 5 .consume)
    (fun s => s.reads == [0] && s.producer 0 == .lockReady) (by decide +kernel)
  rw [Bool.and_eq_true] at hend
  exact ⟨s, hend.1, eq_of_beq hend.2, prodcons6_correct 3 (by decide) s hs⟩

end DdsAuto.Mutex.Prodcons6
