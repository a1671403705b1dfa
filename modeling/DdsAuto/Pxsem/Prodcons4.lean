import DdsAuto.Lib.Lts
import DdsAuto.Lib.Ring
import DdsAuto.Lib.Threads
import Mathlib.Data.Fintype.Basic

/-!
# `prodcons4`: producers and consumers of a bounded buffer

Any number of threads run `produce` and `consume` over three semaphores. A
semaphore operation is a step, and so is what a thread does to the shared data
between two of them.

A thread that finds no item left posts `nstored` once more before it returns,
so that the next consumer wakes up. `Inv` counts these posts apart: they exist
only once every item has been put, so none is taken for an item.
-/

namespace DdsAuto.Pxsem

open Function Threads Lts

def NBUFF : Nat := 10

/-- `shared`. `consumed` records the values fetched from `buff`, `errors` the
lines `consume` prints. -/
structure Shared where
  buff : Fin NBUFF → Nat
  nput : Nat
  nputval : Nat
  nget : Nat
  ngetval : Nat
  mutex : Nat
  nempty : Nat
  nstored : Nat
  consumed : List Nat
  errors : List String

/-- `n % NBUFF`. -/
def slot (n : Nat) : Fin NBUFF := ⟨n % NBUFF, Nat.mod_lt _ (by decide)⟩

/-- The item goes into the buffer. -/
def Shared.put (sh : Shared) : Shared :=
  { sh with
    buff := update sh.buff (slot sh.nput) sh.nputval
    nput := sh.nput + 1
    nputval := sh.nputval + 1 }

/-- The item is fetched and compared. -/
def Shared.get (sh : Shared) : Shared :=
  let i := slot sh.nget
  { sh with
    errors :=
      if sh.buff i ≠ sh.ngetval then sh.errors ++ [s!"error: buff[{i.val}] = {sh.buff i}"]
      else sh.errors
    consumed := sh.consumed ++ [sh.buff i]
    nget := sh.nget + 1
    ngetval := sh.ngetval + 1 }

/-- Where `produce` is: before the operation named. -/
inductive ProducePc
  | waitEmpty
  | waitMutex
  | put
  | exitStored
  | exitEmpty
  | exitMutex
  | postMutex
  | postStored
  | returned
  deriving DecidableEq, Repr

/-- Where `consume` is. -/
inductive ConsumePc
  | waitStored
  | waitMutex
  | get
  | exitStored
  | exitMutex
  | postMutex
  | postEmpty
  | returned
  deriving DecidableEq, Repr

/-- A thread, with the count it adds to. -/
structure Thread (pc : Type) where
  pc : pc
  count : Nat

/-- The next step of `produce`; `none` when it is blocked or has returned. -/
def produce (nitems : Nat) (sh : Shared) (t : Thread ProducePc) :
    Option (Shared × Thread ProducePc) :=
  match t.pc with
  | .waitEmpty =>
    if 0 < sh.nempty then some ({ sh with nempty := sh.nempty - 1 }, { t with pc := .waitMutex })
    else none
  | .waitMutex =>
    if 0 < sh.mutex then some ({ sh with mutex := sh.mutex - 1 }, { t with pc := .put }) else none
  | .put =>
    if sh.nput ≥ nitems then some (sh, { t with pc := .exitStored })
    else some (sh.put, { t with pc := .postMutex })
  | .exitStored => some ({ sh with nstored := sh.nstored + 1 }, { t with pc := .exitEmpty })
  | .exitEmpty => some ({ sh with nempty := sh.nempty + 1 }, { t with pc := .exitMutex })
  | .exitMutex => some ({ sh with mutex := sh.mutex + 1 }, { t with pc := .returned })
  | .postMutex => some ({ sh with mutex := sh.mutex + 1 }, { t with pc := .postStored })
  | .postStored =>
    some ({ sh with nstored := sh.nstored + 1 }, { pc := .waitEmpty, count := t.count + 1 })
  | .returned => none

/-- The next step of `consume`. -/
def consume (nitems : Nat) (sh : Shared) (t : Thread ConsumePc) :
    Option (Shared × Thread ConsumePc) :=
  match t.pc with
  | .waitStored =>
    if 0 < sh.nstored then some ({ sh with nstored := sh.nstored - 1 }, { t with pc := .waitMutex })
    else none
  | .waitMutex =>
    if 0 < sh.mutex then some ({ sh with mutex := sh.mutex - 1 }, { t with pc := .get }) else none
  | .get =>
    if sh.nget ≥ nitems then some (sh, { t with pc := .exitStored })
    else some (sh.get, { t with pc := .postMutex })
  | .exitStored => some ({ sh with nstored := sh.nstored + 1 }, { t with pc := .exitMutex })
  | .exitMutex => some ({ sh with mutex := sh.mutex + 1 }, { t with pc := .returned })
  | .postMutex => some ({ sh with mutex := sh.mutex + 1 }, { t with pc := .postEmpty })
  | .postEmpty =>
    some ({ sh with nempty := sh.nempty + 1 }, { pc := .waitStored, count := t.count + 1 })
  | .returned => none

-- ---------------------------------------------------------------------------
-- The threads
-- ---------------------------------------------------------------------------

structure State (P C : Type) where
  shared : Shared
  producer : P → Thread ProducePc
  consumer : C → Thread ConsumePc

inductive Label (P C : Type)
  | produce (p : P)
  | consume (c : C)

variable {P C : Type} [Fintype P] [DecidableEq P] [Fintype C] [DecidableEq C]

def step (nitems : Nat) (s : State P C) : Label P C → Option (State P C)
  | .produce p =>
    (produce nitems s.shared (s.producer p)).map fun (sh, t) =>
      { s with shared := sh, producer := update s.producer p t }
  | .consume c =>
    (consume nitems s.shared (s.consumer c)).map fun (sh, t) =>
      { s with shared := sh, consumer := update s.consumer c t }

/-- The threads `main` creates, and the semaphores it initialises. -/
def system (P C : Type) [DecidableEq P] [DecidableEq C] (nitems : Nat) :
    Lts (State P C) (Label P C) where
  init := {
    shared := ⟨fun _ => 0, 0, 0, 0, 0, 1, NBUFF, 0, [], []⟩
    producer := fun _ => ⟨.waitEmpty, 0⟩
    consumer := fun _ => ⟨.waitStored, 0⟩ }
  step := step nitems

/-- Every thread has returned. -/
def State.AllReturned (s : State P C) : Prop :=
  (∀ p, (s.producer p).pc = .returned) ∧ ∀ c, (s.consumer c).pc = .returned

-- ---------------------------------------------------------------------------
-- The tokens a thread holds
-- ---------------------------------------------------------------------------

/-- It has taken `mutex`. -/
def ProducePc.inside : ProducePc → Nat
  | .put | .exitStored | .exitEmpty | .exitMutex | .postMutex => 1
  | _ => 0

/-- It has taken `nempty` and neither filled the slot nor given it back. -/
def ProducePc.holdsEmpty : ProducePc → Nat
  | .waitMutex | .put | .exitStored | .exitEmpty => 1
  | _ => 0

/-- It has put an item it has not posted. -/
def ProducePc.owesStored : ProducePc → Nat
  | .postMutex | .postStored => 1
  | _ => 0

/-- It has posted `nstored` on its way out. -/
def ProducePc.extra : ProducePc → Nat
  | .exitEmpty | .exitMutex | .returned => 1
  | _ => 0

def ConsumePc.inside : ConsumePc → Nat
  | .get | .exitStored | .exitMutex | .postMutex => 1
  | _ => 0

/-- It has taken `nstored` and neither fetched an item nor given it back. -/
def ConsumePc.holdsStored : ConsumePc → Nat
  | .waitMutex | .get | .exitStored => 1
  | _ => 0

/-- It has fetched an item and not posted the slot. -/
def ConsumePc.owesEmpty : ConsumePc → Nat
  | .postMutex | .postEmpty => 1
  | _ => 0

/-- It has seen that every item is put. -/
def ProducePc.Leaving : ProducePc → Prop
  | .exitStored | .exitEmpty | .exitMutex | .returned => True
  | _ => False

/-- It has seen that every item is fetched. -/
def ConsumePc.Leaving : ConsumePc → Prop
  | .exitStored | .exitMutex | .returned => True
  | _ => False

section
variable (w : ProducePc → Nat) (v : ConsumePc → Nat) (s : State P C)

/-- A weight summed over the producers, and over the consumers. -/
def State.producers : Nat := total (fun t => w t.pc) s.producer

def State.consumers : Nat := total (fun t => v t.pc) s.consumer

end

/-- The accounts of the three semaphores, and what the items are. -/
structure Inv (nitems : Nat) (s : State P C) : Prop where
  mutex : s.shared.mutex + s.producers ProducePc.inside + s.consumers ConsumePc.inside = 1
  empty : s.shared.nempty + s.producers ProducePc.holdsEmpty + s.shared.nput +
    s.consumers ConsumePc.owesEmpty = NBUFF + s.shared.nget
  stored : s.shared.nstored + s.producers ProducePc.owesStored +
    s.consumers ConsumePc.holdsStored + s.shared.nget =
      s.shared.nput + s.producers ProducePc.extra
  put_le : s.shared.nput ≤ nitems
  get_le : s.shared.nget ≤ s.shared.nput
  putval : s.shared.nputval = s.shared.nput
  getval : s.shared.ngetval = s.shared.nget
  allPut : ∀ p, (s.producer p).pc.Leaving → s.shared.nput = nitems
  allGot : ∀ c, (s.consumer c).pc.Leaving → s.shared.nget = nitems
  buff : ∀ k, s.shared.nget ≤ k → k < s.shared.nput → s.shared.buff (slot k) = k
  consumed : s.shared.consumed = List.range s.shared.nget
  errors : s.shared.errors = []

-- ---------------------------------------------------------------------------
-- One thread moves
-- ---------------------------------------------------------------------------

variable {nitems : Nat} {s s' : State P C} {p : P} {c : C}

omit [Fintype C] [DecidableEq C] in
theorem producers_update (w : ProducePc → Nat) (s : State P C) (p : P) (t : Thread ProducePc)
    (sh : Shared) :
    State.producers w { s with shared := sh, producer := update s.producer p t } +
      w (s.producer p).pc = s.producers w + w t.pc :=
  total_update (fun u : Thread ProducePc => w u.pc) s.producer p t

omit [Fintype P] [DecidableEq P] in
theorem consumers_update (w : ConsumePc → Nat) (s : State P C) (c : C) (t : Thread ConsumePc)
    (sh : Shared) :
    State.consumers w { s with shared := sh, consumer := update s.consumer c t } +
      w (s.consumer c).pc = s.consumers w + w t.pc :=
  total_update (fun u : Thread ConsumePc => w u.pc) s.consumer c t

omit [DecidableEq C] in
/-- A producer's step that leaves the items alone: what it adds to a semaphore
it no longer holds, or owes. -/
theorem Inv.produceSem (h : Inv nitems s) (p : P) (t : Thread ProducePc) (m e n : Nat)
    (hm : m + t.pc.inside = s.shared.mutex + (s.producer p).pc.inside)
    (he : e + t.pc.holdsEmpty = s.shared.nempty + (s.producer p).pc.holdsEmpty)
    (hn : n + t.pc.owesStored + (s.producer p).pc.extra =
      s.shared.nstored + (s.producer p).pc.owesStored + t.pc.extra)
    (hleave : t.pc.Leaving → s.shared.nput = nitems) :
    Inv nitems { s with
      shared := { s.shared with mutex := m, nempty := e, nstored := n }
      producer := update s.producer p t } where
  mutex := by
    have hw := producers_update ProducePc.inside s p t
      { s.shared with mutex := m, nempty := e, nstored := n }
    have hold := h.mutex
    show m + _ + s.consumers ConsumePc.inside = 1
    omega
  empty := by
    have hw := producers_update ProducePc.holdsEmpty s p t
      { s.shared with mutex := m, nempty := e, nstored := n }
    have hold := h.empty
    show e + _ + s.shared.nput + s.consumers ConsumePc.owesEmpty = NBUFF + s.shared.nget
    omega
  stored := by
    have hw := producers_update ProducePc.owesStored s p t
      { s.shared with mutex := m, nempty := e, nstored := n }
    have hx := producers_update ProducePc.extra s p t
      { s.shared with mutex := m, nempty := e, nstored := n }
    have hold := h.stored
    show n + _ + s.consumers ConsumePc.holdsStored + s.shared.nget = s.shared.nput + _
    omega
  put_le := h.put_le
  get_le := h.get_le
  putval := h.putval
  getval := h.getval
  allPut := (forall_update_iff s.producer fun _ u => u.pc.Leaving → s.shared.nput = nitems).mpr
    ⟨hleave, fun q _ => h.allPut q⟩
  allGot := h.allGot
  buff := h.buff
  consumed := h.consumed
  errors := h.errors

omit [DecidableEq P] in
/-- The same for a consumer. -/
theorem Inv.consumeSem (h : Inv nitems s) (c : C) (t : Thread ConsumePc) (m e n : Nat)
    (hm : m + t.pc.inside = s.shared.mutex + (s.consumer c).pc.inside)
    (he : e + t.pc.owesEmpty = s.shared.nempty + (s.consumer c).pc.owesEmpty)
    (hn : n + t.pc.holdsStored = s.shared.nstored + (s.consumer c).pc.holdsStored)
    (hleave : t.pc.Leaving → s.shared.nget = nitems) :
    Inv nitems { s with
      shared := { s.shared with mutex := m, nempty := e, nstored := n }
      consumer := update s.consumer c t } where
  mutex := by
    have hw := consumers_update ConsumePc.inside s c t
      { s.shared with mutex := m, nempty := e, nstored := n }
    have hold := h.mutex
    show m + s.producers ProducePc.inside + _ = 1
    omega
  empty := by
    have hw := consumers_update ConsumePc.owesEmpty s c t
      { s.shared with mutex := m, nempty := e, nstored := n }
    have hold := h.empty
    show e + s.producers ProducePc.holdsEmpty + s.shared.nput + _ = NBUFF + s.shared.nget
    omega
  stored := by
    have hw := consumers_update ConsumePc.holdsStored s c t
      { s.shared with mutex := m, nempty := e, nstored := n }
    have hold := h.stored
    show n + s.producers ProducePc.owesStored + _ + s.shared.nget =
      s.shared.nput + s.producers ProducePc.extra
    omega
  put_le := h.put_le
  get_le := h.get_le
  putval := h.putval
  getval := h.getval
  allPut := h.allPut
  allGot := (forall_update_iff s.consumer fun _ u => u.pc.Leaving → s.shared.nget = nitems).mpr
    ⟨hleave, fun d _ => h.allGot d⟩
  buff := h.buff
  consumed := h.consumed
  errors := h.errors

omit [DecidableEq P] [Fintype C] [DecidableEq C] in
theorem producers_pos {w : ProducePc → Nat} (h : 0 < w (s.producer p).pc) : 0 < s.producers w :=
  Nat.lt_of_lt_of_le h (le_total (fun t : Thread ProducePc => w t.pc) s.producer p)

omit [Fintype P] [DecidableEq P] [DecidableEq C] in
theorem consumers_pos {w : ConsumePc → Nat} (h : 0 < w (s.consumer c).pc) : 0 < s.consumers w :=
  Nat.lt_of_lt_of_le h (le_total (fun t : Thread ConsumePc => w t.pc) s.consumer c)

theorem ProducePc.leaving_of_extra {pc : ProducePc} (h : 0 < pc.extra) : pc.Leaving := by
  cases pc with
  | exitEmpty | exitMutex | returned => trivial
  | _ => cases h

omit [DecidableEq P] [DecidableEq C] in
/-- An extra post means that everything has been put. -/
theorem Inv.nput_of_extra (h : Inv nitems s) (hx : 0 < s.producers ProducePc.extra) :
    s.shared.nput = nitems := by
  obtain ⟨p, hp⟩ := exists_of_total_pos hx
  exact h.allPut p (ProducePc.leaving_of_extra hp)

omit [DecidableEq P] [DecidableEq C] in
/-- A producer that is about to put has a slot for its item. -/
theorem Inv.put_room (h : Inv nitems s) (hp : (s.producer p).pc = .put) :
    s.shared.nput < s.shared.nget + NBUFF := by
  have hheld : 0 < s.producers ProducePc.holdsEmpty := producers_pos (by rw [hp]; decide)
  have hold := h.empty
  omega

omit [DecidableEq P] [DecidableEq C] in
/-- A consumer that finds items left has one to fetch, even if the post it took
was an extra one. -/
theorem Inv.get_lt (h : Inv nitems s) (hc : (s.consumer c).pc = .get)
    (hleft : s.shared.nget < nitems) : s.shared.nget < s.shared.nput := by
  have hheld : 0 < s.consumers ConsumePc.holdsStored := consumers_pos (by rw [hc]; decide)
  have hold := h.stored
  by_cases hx : 0 < s.producers ProducePc.extra
  · rw [h.nput_of_extra hx]
    exact hleft
  · omega

theorem slot_ne {k n : Nat} (hlt : k < n) (hroom : n < k + NBUFF) : slot k ≠ slot n := by
  intro h
  exact Ring.mod_ne hlt hroom (Fin.val_eq_of_eq h)

omit [DecidableEq C] in
/-- The item goes into a slot that holds nothing still to be fetched. -/
theorem Inv.putItem (h : Inv nitems s) (hp : (s.producer p).pc = .put)
    (hleft : s.shared.nput < nitems) (t : Thread ProducePc) (ht : t.pc = .postMutex) :
    Inv nitems { s with shared := s.shared.put, producer := update s.producer p t } := by
  have hw (w : ProducePc → Nat) := producers_update w s p t s.shared.put
  rw [hp, ht] at hw
  refine ⟨?_, ?_, ?_, hleft, Nat.le_succ_of_le h.get_le, congrArg (· + 1) h.putval, h.getval,
    ?_, h.allGot, ?_, h.consumed, h.errors⟩
  · have hin := hw ProducePc.inside
    have hold := h.mutex
    simp only [ProducePc.inside] at hin
    show s.shared.mutex + _ + s.consumers ConsumePc.inside = 1
    omega
  · have hin := hw ProducePc.holdsEmpty
    have hold := h.empty
    simp only [ProducePc.holdsEmpty] at hin
    show s.shared.nempty + _ + (s.shared.nput + 1) + s.consumers ConsumePc.owesEmpty =
      NBUFF + s.shared.nget
    omega
  · have hin := hw ProducePc.owesStored
    have hex := hw ProducePc.extra
    have hold := h.stored
    simp only [ProducePc.owesStored, ProducePc.extra] at hin hex
    show s.shared.nstored + _ + s.consumers ConsumePc.holdsStored + s.shared.nget =
      (s.shared.nput + 1) + _
    omega
  · refine (forall_update_iff s.producer fun _ u => u.pc.Leaving → _).mpr ⟨?_, fun q _ hq => ?_⟩
    · rw [ht]
      exact False.elim
    · exact absurd (h.allPut q hq) (Nat.ne_of_lt hleft)
  · intro k hget hput
    show update s.shared.buff (slot s.shared.nput) s.shared.nputval (slot k) = k
    rcases Nat.lt_succ_iff_lt_or_eq.mp hput with hlt | heq
    · have hroom := h.put_room hp
      have hget : s.shared.nget ≤ k := hget
      rw [update_of_ne (slot_ne hlt (by omega))]
      exact h.buff k hget hlt
    · rw [heq, update_self, h.putval]

omit [DecidableEq P] in
/-- The item fetched is the next one. -/
theorem Inv.getItem (h : Inv nitems s) (hc : (s.consumer c).pc = .get)
    (hleft : s.shared.nget < nitems) (t : Thread ConsumePc) (ht : t.pc = .postMutex) :
    Inv nitems { s with shared := s.shared.get, consumer := update s.consumer c t } := by
  have hlt := h.get_lt hc hleft
  have hitem : s.shared.buff (slot s.shared.nget) = s.shared.nget :=
    h.buff _ (Nat.le_refl _) hlt
  have hw (w : ConsumePc → Nat) := consumers_update w s c t s.shared.get
  rw [hc, ht] at hw
  refine ⟨?_, ?_, ?_, h.put_le, hlt, h.putval, congrArg (· + 1) h.getval, h.allPut, ?_, ?_, ?_, ?_⟩
  · have hin := hw ConsumePc.inside
    have hold := h.mutex
    simp only [ConsumePc.inside] at hin
    show s.shared.mutex + s.producers ProducePc.inside + _ = 1
    omega
  · have hin := hw ConsumePc.owesEmpty
    have hold := h.empty
    simp only [ConsumePc.owesEmpty] at hin
    show s.shared.nempty + s.producers ProducePc.holdsEmpty + s.shared.nput + _ =
      NBUFF + (s.shared.nget + 1)
    omega
  · have hin := hw ConsumePc.holdsStored
    have hold := h.stored
    simp only [ConsumePc.holdsStored] at hin
    show s.shared.nstored + s.producers ProducePc.owesStored + _ + (s.shared.nget + 1) =
      s.shared.nput + s.producers ProducePc.extra
    omega
  · refine (forall_update_iff s.consumer fun _ u => u.pc.Leaving → _).mpr ⟨?_, fun d _ hd => ?_⟩
    · rw [ht]
      exact False.elim
    · exact absurd (h.allGot d hd) (Nat.ne_of_lt hleft)
  · exact fun k hget hput => h.buff k (Nat.le_of_succ_le hget) hput
  · show s.shared.consumed ++ [s.shared.buff (slot s.shared.nget)] = List.range (s.shared.nget + 1)
    rw [hitem, h.consumed, List.range_succ]
  · show (if s.shared.buff (slot s.shared.nget) ≠ s.shared.ngetval then _ else _) = _
    rw [if_neg (not_not.mpr (hitem.trans h.getval.symm))]
    exact h.errors

omit [DecidableEq C] in
theorem Inv.produce (h : Inv nitems s)
    (hstep : produce nitems s.shared (s.producer p) = some (sh, t)) :
    Inv nitems { s with shared := sh, producer := update s.producer p t } := by
  unfold Pxsem.produce at hstep
  cases hpc : (s.producer p).pc with
  | waitEmpty =>
    simp only [hpc, Option.ite_none_right_eq_some, Option.some.injEq] at hstep
    obtain ⟨hpos, heq⟩ := hstep
    cases heq
    exact h.produceSem p _ _ _ _ (by rw [hpc]; rfl)
      (by rw [hpc]; exact Nat.sub_add_cancel hpos) (by rw [hpc]; rfl) nofun
  | waitMutex =>
    simp only [hpc, Option.ite_none_right_eq_some, Option.some.injEq] at hstep
    obtain ⟨hpos, heq⟩ := hstep
    cases heq
    exact h.produceSem p _ _ _ _ (by rw [hpc]; exact Nat.sub_add_cancel hpos) (by rw [hpc]; rfl)
      (by rw [hpc]; rfl) nofun
  | put =>
    simp only [hpc] at hstep
    split at hstep
    · rename_i hall
      cases hstep
      exact h.produceSem p _ _ _ _ (by rw [hpc]; rfl) (by rw [hpc]; rfl) (by rw [hpc]; rfl)
        fun _ => Nat.le_antisymm h.put_le hall
    · rename_i hleft
      cases hstep
      exact h.putItem hpc (Nat.lt_of_not_le hleft) _ rfl
  | exitStored =>
    simp only [hpc, Option.some.injEq] at hstep
    cases hstep
    exact h.produceSem p _ _ _ _ (by rw [hpc]; rfl) (by rw [hpc]; rfl) (by rw [hpc]; rfl)
      fun _ => h.allPut p (by rw [hpc]; trivial)
  | exitEmpty =>
    simp only [hpc, Option.some.injEq] at hstep
    cases hstep
    exact h.produceSem p _ _ _ _ (by rw [hpc]; rfl) (by rw [hpc]; rfl) (by rw [hpc]; rfl)
      fun _ => h.allPut p (by rw [hpc]; trivial)
  | exitMutex =>
    simp only [hpc, Option.some.injEq] at hstep
    cases hstep
    exact h.produceSem p _ _ _ _ (by rw [hpc]; rfl) (by rw [hpc]; rfl) (by rw [hpc]; rfl)
      fun _ => h.allPut p (by rw [hpc]; trivial)
  | postMutex =>
    simp only [hpc, Option.some.injEq] at hstep
    cases hstep
    exact h.produceSem p _ _ _ _ (by rw [hpc]; rfl) (by rw [hpc]; rfl) (by rw [hpc]; rfl) nofun
  | postStored =>
    simp only [hpc, Option.some.injEq] at hstep
    cases hstep
    exact h.produceSem p _ _ _ _ (by rw [hpc]; rfl) (by rw [hpc]; rfl) (by rw [hpc]; rfl) nofun
  | returned =>
    simp only [hpc] at hstep
    cases hstep

omit [DecidableEq P] in
theorem Inv.consume (h : Inv nitems s)
    (hstep : consume nitems s.shared (s.consumer c) = some (sh, t)) :
    Inv nitems { s with shared := sh, consumer := update s.consumer c t } := by
  unfold Pxsem.consume at hstep
  cases hpc : (s.consumer c).pc with
  | waitStored =>
    simp only [hpc, Option.ite_none_right_eq_some, Option.some.injEq] at hstep
    obtain ⟨hpos, heq⟩ := hstep
    cases heq
    exact h.consumeSem c _ _ _ _ (by rw [hpc]; rfl) (by rw [hpc]; rfl)
      (by rw [hpc]; exact Nat.sub_add_cancel hpos) nofun
  | waitMutex =>
    simp only [hpc, Option.ite_none_right_eq_some, Option.some.injEq] at hstep
    obtain ⟨hpos, heq⟩ := hstep
    cases heq
    exact h.consumeSem c _ _ _ _ (by rw [hpc]; exact Nat.sub_add_cancel hpos) (by rw [hpc]; rfl)
      (by rw [hpc]; rfl) nofun
  | get =>
    simp only [hpc] at hstep
    split at hstep
    · rename_i hall
      cases hstep
      exact h.consumeSem c _ _ _ _ (by rw [hpc]; rfl) (by rw [hpc]; rfl) (by rw [hpc]; rfl)
        fun _ => Nat.le_antisymm (Nat.le_trans h.get_le h.put_le) hall
    · rename_i hleft
      cases hstep
      exact h.getItem hpc (Nat.lt_of_not_le hleft) _ rfl
  | exitStored =>
    simp only [hpc, Option.some.injEq] at hstep
    cases hstep
    exact h.consumeSem c _ _ _ _ (by rw [hpc]; rfl) (by rw [hpc]; rfl) (by rw [hpc]; rfl)
      fun _ => h.allGot c (by rw [hpc]; trivial)
  | exitMutex =>
    simp only [hpc, Option.some.injEq] at hstep
    cases hstep
    exact h.consumeSem c _ _ _ _ (by rw [hpc]; rfl) (by rw [hpc]; rfl) (by rw [hpc]; rfl)
      fun _ => h.allGot c (by rw [hpc]; trivial)
  | postMutex =>
    simp only [hpc, Option.some.injEq] at hstep
    cases hstep
    exact h.consumeSem c _ _ _ _ (by rw [hpc]; rfl) (by rw [hpc]; rfl) (by rw [hpc]; rfl) nofun
  | postEmpty =>
    simp only [hpc, Option.some.injEq] at hstep
    cases hstep
    exact h.consumeSem c _ _ _ _ (by rw [hpc]; rfl) (by rw [hpc]; rfl) (by rw [hpc]; rfl) nofun
  | returned =>
    simp only [hpc] at hstep
    cases hstep

theorem Inv.step (h : Inv nitems s) (hstep : step nitems s a = some s') : Inv nitems s' := by
  cases a with
  | produce p =>
    simp only [Pxsem.step, Option.map_eq_some_iff] at hstep
    obtain ⟨⟨sh, t⟩, hp, rfl⟩ := hstep
    exact h.produce hp
  | consume c =>
    simp only [Pxsem.step, Option.map_eq_some_iff] at hstep
    obtain ⟨⟨sh, t⟩, hc, rfl⟩ := hstep
    exact h.consume hc

theorem inv_init (nitems : Nat) : Inv nitems (system P C nitems).init where
  mutex := by
    have hp : (system P C nitems).init.producers ProducePc.inside = 0 := total_eq_zero fun _ => rfl
    have hc : (system P C nitems).init.consumers ConsumePc.inside = 0 := total_eq_zero fun _ => rfl
    rw [hp, hc]
    rfl
  empty := by
    have hp : (system P C nitems).init.producers ProducePc.holdsEmpty = 0 :=
      total_eq_zero fun _ => rfl
    have hc : (system P C nitems).init.consumers ConsumePc.owesEmpty = 0 :=
      total_eq_zero fun _ => rfl
    rw [hp, hc]
    rfl
  stored := by
    have hp : (system P C nitems).init.producers ProducePc.owesStored = 0 :=
      total_eq_zero fun _ => rfl
    have hx : (system P C nitems).init.producers ProducePc.extra = 0 := total_eq_zero fun _ => rfl
    have hc : (system P C nitems).init.consumers ConsumePc.holdsStored = 0 :=
      total_eq_zero fun _ => rfl
    rw [hp, hx, hc]
    rfl
  put_le := Nat.zero_le _
  get_le := Nat.le_refl _
  putval := rfl
  getval := rfl
  allPut _ hleave := hleave.elim
  allGot _ hleave := hleave.elim
  buff k _ hk := absurd hk (Nat.not_lt_zero k)
  consumed := rfl
  errors := rfl

theorem reachable_inv (h : (system P C nitems).Reachable anyStep s) : Inv nitems s :=
  h.invariant (inv_init nitems) fun _ _ _ hs _ hstep => hs.step hstep

-- ---------------------------------------------------------------------------
-- Every run ends
-- ---------------------------------------------------------------------------

/-- The steps to the next pass of the loop or to the end, as if each pass were the last. -/
def ProducePc.left : ProducePc → Nat
  | .waitEmpty => 6
  | .waitMutex => 5
  | .put => 4
  | .exitStored => 3
  | .exitEmpty => 2
  | .exitMutex => 1
  | .postMutex => 8
  | .postStored => 7
  | .returned => 0

def ConsumePc.left : ConsumePc → Nat
  | .waitStored => 5
  | .waitMutex => 4
  | .get => 3
  | .exitStored => 2
  | .exitMutex => 1
  | .postMutex => 7
  | .postEmpty => 6
  | .returned => 0

/-- Five more steps for each item still to be put, and to be fetched. -/
def State.left (nitems : Nat) (s : State P C) : Nat :=
  5 * (nitems - s.shared.nput) + 5 * (nitems - s.shared.nget) + s.producers ProducePc.left +
    s.consumers ConsumePc.left

theorem produce_left (h : produce nitems sh t = some (sh', t')) :
    5 * (nitems - sh'.nput) + t'.pc.left < 5 * (nitems - sh.nput) + t.pc.left ∧
      sh'.nget = sh.nget := by
  unfold produce at h
  cases hpc : t.pc with
  | waitEmpty | waitMutex =>
    simp only [hpc, Option.ite_none_right_eq_some, Option.some.injEq] at h
    obtain ⟨-, heq⟩ := h
    cases heq
    exact ⟨Nat.lt_succ_self _, rfl⟩
  | put =>
    simp only [hpc] at h
    split at h <;> cases h
    · exact ⟨Nat.lt_succ_self _, rfl⟩
    · refine ⟨?_, rfl⟩
      show 5 * (nitems - (sh.nput + 1)) + 8 < 5 * (nitems - sh.nput) + 4
      omega
  | returned =>
    simp only [hpc] at h
    cases h
  | _ =>
    simp only [hpc, Option.some.injEq] at h
    cases h
    exact ⟨Nat.lt_succ_self _, rfl⟩

theorem consume_left (h : consume nitems sh t = some (sh', t')) :
    5 * (nitems - sh'.nget) + t'.pc.left < 5 * (nitems - sh.nget) + t.pc.left ∧
      sh'.nput = sh.nput := by
  unfold consume at h
  cases hpc : t.pc with
  | waitStored | waitMutex =>
    simp only [hpc, Option.ite_none_right_eq_some, Option.some.injEq] at h
    obtain ⟨-, heq⟩ := h
    cases heq
    exact ⟨Nat.lt_succ_self _, rfl⟩
  | get =>
    simp only [hpc] at h
    split at h <;> cases h
    · exact ⟨Nat.lt_succ_self _, rfl⟩
    · refine ⟨?_, rfl⟩
      show 5 * (nitems - (sh.nget + 1)) + 7 < 5 * (nitems - sh.nget) + 3
      omega
  | returned =>
    simp only [hpc] at h
    cases h
  | _ =>
    simp only [hpc, Option.some.injEq] at h
    cases h
    exact ⟨Nat.lt_succ_self _, rfl⟩

theorem step_left (hstep : step nitems s a = some s') : s'.left nitems < s.left nitems := by
  cases a with
  | produce p =>
    simp only [Pxsem.step, Option.map_eq_some_iff] at hstep
    obtain ⟨⟨sh, t⟩, hp, rfl⟩ := hstep
    obtain ⟨hlt, hget⟩ := produce_left hp
    have hw := producers_update ProducePc.left s p t sh
    have hc : State.consumers ConsumePc.left
        { s with shared := sh, producer := update s.producer p t } =
      s.consumers ConsumePc.left := rfl
    simp only [State.left, hget, hc]
    omega
  | consume c =>
    simp only [Pxsem.step, Option.map_eq_some_iff] at hstep
    obtain ⟨⟨sh, t⟩, hc, rfl⟩ := hstep
    obtain ⟨hlt, hput⟩ := consume_left hc
    have hw := consumers_update ConsumePc.left s c t sh
    have hp : State.producers ProducePc.left
        { s with shared := sh, consumer := update s.consumer c t } =
      s.producers ProducePc.left := rfl
    simp only [State.left, hput, hp]
    omega

-- ---------------------------------------------------------------------------
-- No deadlock
-- ---------------------------------------------------------------------------

/-- Only three points can block. -/
theorem produce_moves (sh : Shared) (t : Thread ProducePc) (hret : t.pc ≠ .returned)
    (hempty : t.pc = .waitEmpty → 0 < sh.nempty) (hmutex : t.pc = .waitMutex → 0 < sh.mutex) :
    (produce nitems sh t).isSome = true := by
  unfold produce
  cases hpc : t.pc with
  | waitEmpty => simp only [if_pos (hempty hpc), Option.isSome_some]
  | waitMutex => simp only [if_pos (hmutex hpc), Option.isSome_some]
  | put => by_cases hall : sh.nput ≥ nitems <;> simp [hall]
  | returned => exact absurd hpc hret
  | _ => rfl

theorem consume_moves (sh : Shared) (t : Thread ConsumePc) (hret : t.pc ≠ .returned)
    (hstored : t.pc = .waitStored → 0 < sh.nstored) (hmutex : t.pc = .waitMutex → 0 < sh.mutex) :
    (consume nitems sh t).isSome = true := by
  unfold consume
  cases hpc : t.pc with
  | waitStored => simp only [if_pos (hstored hpc), Option.isSome_some]
  | waitMutex => simp only [if_pos (hmutex hpc), Option.isSome_some]
  | get => by_cases hall : sh.nget ≥ nitems <;> simp [hall]
  | returned => exact absurd hpc hret
  | _ => rfl

/-- No thread can move. -/
def State.Stuck (nitems : Nat) (s : State P C) : Prop := ∀ a, step nitems s a = none

omit [Fintype P] [Fintype C] in
theorem State.Stuck.producer (h : s.Stuck nitems) (p : P) :
    ¬ (produce nitems s.shared (s.producer p)).isSome = true := by
  intro hmoves
  have hnone := h (.produce p)
  simp only [step, Option.map_eq_none_iff] at hnone
  rw [hnone] at hmoves
  cases hmoves

omit [Fintype P] [Fintype C] in
theorem State.Stuck.consumer (h : s.Stuck nitems) (c : C) :
    ¬ (consume nitems s.shared (s.consumer c)).isSome = true := by
  intro hmoves
  have hnone := h (.consume c)
  simp only [step, Option.map_eq_none_iff] at hnone
  rw [hnone] at hmoves
  cases hmoves

/-- The mutex is free where nothing moves: whoever holds it can go on. -/
theorem Inv.mutex_of_stuck (h : Inv nitems s) (hstuck : s.Stuck nitems) : 0 < s.shared.mutex := by
  by_contra hzero
  have hold := h.mutex
  by_cases hin : 0 < s.producers ProducePc.inside
  · obtain ⟨p, hp⟩ := exists_of_total_pos hin
    refine hstuck.producer p (produce_moves _ _ ?_ ?_ ?_) <;> intro hpc <;> rw [hpc] at hp <;>
      cases hp
  · obtain ⟨c, hc⟩ := exists_of_total_pos (show 0 < s.consumers ConsumePc.inside by omega)
    refine hstuck.consumer c (consume_moves _ _ ?_ ?_ ?_) <;> intro hpc <;> rw [hpc] at hc <;>
      cases hc

/-- Where nothing moves, a producer has returned or lacks an empty slot. -/
theorem Inv.producer_of_stuck (h : Inv nitems s) (hstuck : s.Stuck nitems) (p : P) :
    (s.producer p).pc = .returned ∨ (s.producer p).pc = .waitEmpty ∧ s.shared.nempty = 0 := by
  by_contra hnot
  push Not at hnot
  exact hstuck.producer p (produce_moves _ _ hnot.1 (fun hpc => Nat.pos_of_ne_zero (hnot.2 hpc))
    fun _ => h.mutex_of_stuck hstuck)

/-- And a consumer has returned or lacks a stored item. -/
theorem Inv.consumer_of_stuck (h : Inv nitems s) (hstuck : s.Stuck nitems) (c : C) :
    (s.consumer c).pc = .returned ∨ (s.consumer c).pc = .waitStored ∧ s.shared.nstored = 0 := by
  by_contra hnot
  push Not at hnot
  exact hstuck.consumer c (consume_moves _ _ hnot.1 (fun hpc => Nat.pos_of_ne_zero (hnot.2 hpc))
    fun _ => h.mutex_of_stuck hstuck)

/-- With all threads stopped, no token is held but the extra posts. -/
theorem Inv.accounts_of_stuck (h : Inv nitems s) (hstuck : s.Stuck nitems) :
    s.shared.nempty + s.shared.nput = NBUFF + s.shared.nget ∧
      s.shared.nstored + s.shared.nget = s.shared.nput + s.producers ProducePc.extra := by
  have hpzero (w : ProducePc → Nat) (hw : w .returned = 0) (hw' : w .waitEmpty = 0) :
      s.producers w = 0 := by
    refine total_eq_zero fun p => ?_
    obtain hpc | ⟨hpc, -⟩ := h.producer_of_stuck hstuck p <;> rw [hpc] <;> assumption
  have hczero (w : ConsumePc → Nat) (hw : w .returned = 0) (hw' : w .waitStored = 0) :
      s.consumers w = 0 := by
    refine total_eq_zero fun c => ?_
    obtain hpc | ⟨hpc, -⟩ := h.consumer_of_stuck hstuck c <;> rw [hpc] <;> assumption
  have hempty := h.empty
  have hstored := h.stored
  rw [hpzero _ rfl rfl, hczero _ rfl rfl] at hempty hstored
  exact ⟨by omega, by omega⟩

/-- Nothing is stuck before every thread has returned. -/
theorem Inv.not_stuck [Nonempty P] [Nonempty C] (h : Inv nitems s) (hret : ¬ s.AllReturned) :
    ∃ a s', Pxsem.step nitems s a = some s' := by
  by_contra hnone
  have hstuck : s.Stuck nitems := by
    intro a
    by_contra hsome
    obtain ⟨s', hs'⟩ := Option.ne_none_iff_exists'.mp hsome
    exact hnone ⟨a, s', hs'⟩
  obtain ⟨hempty, hstored⟩ := h.accounts_of_stuck hstuck
  by_cases hall : ∀ p, (s.producer p).pc = .returned
  · -- A producer that has returned left a post for each consumer still there.
    refine hret ⟨hall, fun c => ?_⟩
    rcases h.consumer_of_stuck hstuck c with hpc | ⟨-, hzero⟩
    · exact hpc
    · obtain ⟨p⟩ := ‹Nonempty P›
      have hextra : 0 < s.producers ProducePc.extra := producers_pos (by rw [hall p]; decide)
      have hget := h.get_le
      omega
  · -- A producer lacks a slot, so the buffer is full and no consumer is done.
    push Not at hall
    obtain ⟨p, hp⟩ := hall
    rcases h.producer_of_stuck hstuck p with hpc | ⟨-, hzero⟩
    · exact hp hpc
    · obtain ⟨c⟩ := ‹Nonempty C›
      have hfull : s.shared.nput = NBUFF + s.shared.nget := by omega
      have hpos : 0 < NBUFF := by decide
      rcases h.consumer_of_stuck hstuck c with hpc | ⟨-, hnone⟩
      · have hgot := h.allGot c (by rw [hpc]; trivial)
        have hput := h.put_le
        omega
      · omega

-- ---------------------------------------------------------------------------
-- The buffer
-- ---------------------------------------------------------------------------

/-- What a state of a run with `nitems` items satisfies. -/
structure Correct (nitems : Nat) (s : State P C) : Prop where
  inOrder : s.shared.consumed <+: List.range nitems
  noErrors : s.shared.errors = []
  noOverrun : s.shared.nget ≤ s.shared.nput ∧ s.shared.nput ≤ s.shared.nget + NBUFF
  complete : s.AllReturned → s.shared.consumed = List.range nitems
  noDeadlock : ¬ s.AllReturned → ∃ a s', step nitems s a = some s'
  /-- All threads can still return, and no run goes on for ever. -/
  terminates : ∃ as s', (system P C nitems).exec s as = some s' ∧ s'.AllReturned
  bounded : ∃ n, ∀ as s', (system P C nitems).exec s as = some s' → as.length ≤ n

theorem prodcons_correct [Nonempty P] [Nonempty C] (nitems : Nat) (s : State P C)
    (h : (system P C nitems).Reachable anyStep s) : Correct nitems s := by
  have hinv := reachable_inv h
  have hdec : ∀ s a s', Inv nitems s → (system P C nitems).step s a = some s' →
      s'.left nitems < s.left nitems := fun _ _ _ _ hstep => step_left hstep
  have hpres : ∀ s a s', Inv nitems s → (system P C nitems).step s a = some s' → Inv nitems s' :=
    fun _ _ _ hs hstep => Inv.step hs hstep
  refine ⟨?_, hinv.errors, ⟨hinv.get_le, ?_⟩, ?_, hinv.not_stuck, ?_, s.left nitems, ?_⟩
  · rw [hinv.consumed]
    have hle := Nat.le_trans hinv.get_le hinv.put_le
    rw [← Nat.min_eq_left hle, ← List.take_range]
    exact List.take_prefix _ _
  · have hempty := hinv.empty
    omega
  · rintro ⟨-, hconsumers⟩
    obtain ⟨c⟩ := ‹Nonempty C›
    rw [hinv.consumed, hinv.allGot c (by rw [hconsumers c]; trivial)]
  · exact exists_exec_of_measure hdec hpres (fun _ hs => hs.not_stuck) hinv
  · intro as s' hrun
    exact Nat.le_trans (Nat.le_add_right _ _) (length_le_of_measure hdec hpres hinv hrun)

/-- One producer puts the first of three items and one consumer fetches it. -/
theorem prodcons_correct_two :
    ∃ s : State (Fin 2) (Fin 2), (system (Fin 2) (Fin 2) 3).Reachable anyStep s ∧
      (s.shared.consumed == [0]) = true ∧ Correct 3 s := by
  obtain ⟨s, hs, hfetched⟩ := reachable_of_exec (system (Fin 2) (Fin 2) 3)
    (List.replicate 5 (.produce 0) ++ List.replicate 3 (.consume 1))
    (fun s => s.shared.consumed == [0]) (by decide +kernel)
  exact ⟨s, hs, hfetched, prodcons_correct 3 s hs⟩

end DdsAuto.Pxsem
