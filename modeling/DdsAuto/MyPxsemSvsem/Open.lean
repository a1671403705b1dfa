import DdsAuto.Lib.Lts
import DdsAuto.MyPxsemMmap.Open

/-!
# A failed `mysem_open` of `my_pxsem_svsem`

One call of `mysem_open` over the table of System V semaphores, with arbitrary
results of its system calls and other processes that create, change and remove
sets in between.

All ways to fail end at `err`, which removes the set under `semid` whoever has
created it. An opener that fails after its `semget`, because `IPC_STAT` or
`malloc` fails or the creator is slow, so takes away a set that others use.
-/

namespace DdsAuto.MyPxsemSvsem

open Lts Function MyPxsemMmap

/-- `<semaphore.h>`. -/
def SEMVMX : Nat := 32767

/-- A semaphore set of one semaphore. `tag` tells it from every other set there has
ever been, as a semid does not. -/
structure SemSet where
  tag : Nat
  key : Nat
  semval : Nat
  sem_otime : Nat
  deriving DecidableEq, Repr

/-- The sets by their semids, and the next tag. -/
structure Table where
  set : Nat → Option SemSet
  next : Nat
  born : ∀ semid st, set semid = some st → st.tag < next
  unique : ∀ semid semid' st st', set semid = some st → set semid' = some st' →
    st.tag = st'.tag → semid = semid'

/-- The set with this tag is there. -/
def Table.Has (t : Table) (tag : Nat) : Prop := ∃ semid st, t.set semid = some st ∧ st.tag = tag

theorem Table.Has.lt {t : Table} {tag : Nat} (h : t.Has tag) : tag < t.next := by
  obtain ⟨semid, st, hset, rfl⟩ := h
  exact t.born semid st hset

theorem update_some {set : Nat → Option SemSet} {semid semid' : Nat} {new : Option SemSet}
    {st : SemSet} (h : update set semid new semid' = some st) :
    semid' = semid ∧ new = some st ∨ semid' ≠ semid ∧ set semid' = some st := by
  by_cases heq : semid' = semid
  · subst heq
    rw [update_self] at h
    exact .inl ⟨rfl, h⟩
  · rw [update_of_ne heq] at h
    exact .inr ⟨heq, h⟩

/-- A new set. -/
def Table.create (t : Table) (semid key : Nat) : Table where
  set := update t.set semid (some ⟨t.next, key, 0, 0⟩)
  next := t.next + 1
  born semid' st h := by
    rcases update_some h with ⟨-, hnew⟩ | ⟨-, hold⟩
    · cases hnew
      exact Nat.lt_succ_self _
    · exact Nat.lt_succ_of_lt (t.born _ _ hold)
  unique semid₁ semid₂ st₁ st₂ h₁ h₂ htag := by
    rcases update_some h₁ with ⟨rfl, hnew₁⟩ | ⟨-, hold₁⟩ <;>
      rcases update_some h₂ with ⟨rfl, hnew₂⟩ | ⟨-, hold₂⟩
    · rfl
    · cases hnew₁
      exact absurd htag.symm (Nat.ne_of_lt (t.born _ _ hold₂))
    · cases hnew₂
      exact absurd htag (Nat.ne_of_lt (t.born _ _ hold₁))
    · exact t.unique _ _ _ _ hold₁ hold₂ htag

/-- `IPC_RMID`. -/
def Table.remove (t : Table) (semid : Nat) : Table where
  set := update t.set semid none
  next := t.next
  born semid' st h := by
    rcases update_some h with ⟨-, hnew⟩ | ⟨-, hold⟩
    · cases hnew
    · exact t.born _ _ hold
  unique semid₁ semid₂ st₁ st₂ h₁ h₂ htag := by
    rcases update_some h₁ with ⟨-, hnew⟩ | ⟨-, hold₁⟩
    · cases hnew
    · rcases update_some h₂ with ⟨-, hnew⟩ | ⟨-, hold₂⟩
      · cases hnew
      · exact t.unique _ _ _ _ hold₁ hold₂ htag

/-- `SETVAL` and `semop` change a set but not which one it is. -/
def Table.change (t : Table) (semid semval sem_otime : Nat) : Table where
  set := update t.set semid ((t.set semid).map fun st =>
    { st with semval := semval, sem_otime := sem_otime })
  next := t.next
  born semid' st h := by
    rcases update_some h with ⟨-, hnew⟩ | ⟨-, hold⟩
    · obtain ⟨st', hset, rfl⟩ := Option.map_eq_some_iff.mp hnew
      exact t.born semid st' hset
    · exact t.born _ _ hold
  unique semid₁ semid₂ st₁ st₂ h₁ h₂ htag := by
    have hset {semid' st : _} (h : update t.set semid ((t.set semid).map fun st =>
        { st with semval := semval, sem_otime := sem_otime }) semid' = some st) :
        ∃ st', t.set semid' = some st' ∧ st'.tag = st.tag := by
      rcases update_some h with ⟨rfl, hnew⟩ | ⟨-, hold⟩
      · obtain ⟨st', hset, rfl⟩ := Option.map_eq_some_iff.mp hnew
        exact ⟨st', hset, rfl⟩
      · exact ⟨st, hold, rfl⟩
    obtain ⟨st₁', hset₁, htag₁⟩ := hset h₁
    obtain ⟨st₂', hset₂, htag₂⟩ := hset h₂
    exact t.unique _ _ _ _ hset₁ hset₂ (by rw [htag₁, htag₂, htag])

-- ---------------------------------------------------------------------------
-- `mysem_open`
-- ---------------------------------------------------------------------------

/-- Where the call is: before the system call named. `rmid` is the one at `err`,
with the `errno` it saves. -/
inductive Pc
  | open
  | ftok
  | semgetExcl
  | setval
  | semop
  | ftokExisting
  | semgetExisting
  | stat (i : Nat)
  | malloc
  | rmid (errno : Errno)
  | returned (sem : Except Errno (Option Nat))

/-- The table, the variables of the call, the tags of the sets it has created and
of those that others have removed. A `semid` of -1 is `none`. -/
structure State where
  table : Table
  pc : Pc
  key : Nat
  semid : Option Nat
  own : List Nat
  removed : List Nat

/-- What a system call returns: a key or a semid where it has one. -/
inductive Outcome
  | ok (value : Nat)
  | fails (errno : Errno)

inductive Label
  | call (r : Outcome)
  | create (semid key : Nat)
  | change (semid semval sem_otime : Nat)
  | remove (semid : Nat)

/-- The set under `semid`. -/
def State.current (s : State) : Option (Nat × SemSet) :=
  s.semid.bind fun semid => (s.table.set semid).map fun st => (semid, st)

/-- The next system call of `mysem_open` and what follows from its result. A call
on a semid succeeds only where there is a set, and `semget` for no new semaphores
only for one with the key. The permissions in `semflag` are among the reasons a
call may fail. -/
def sysCall (c : Call) (s : State) (r : Outcome) : Option State :=
  match s.pc, r with
  | .open, .ok _ => some { s with pc := .ftok }
  | .open, .fails e => some { s with pc := .returned (.error e) }
  | .ftok, .ok key => some { s with key := key, pc := .semgetExcl }
  | .ftok, .fails e => some { s with pc := .returned (.error e) }
  | .semgetExcl, .ok semid =>
    match s.table.set semid with
    | none =>
      some { s with
        table := s.table.create semid s.key
        own := s.table.next :: s.own
        semid := some semid
        pc := .setval }
    | some _ => none
  | .semgetExcl, .fails e =>
    let pc := if e = .EEXIST ∧ c.excl = false then .ftokExisting else .rmid e
    some { s with semid := none, pc := pc }
  | .setval, .ok _ =>
    match s.current with
    | some (semid, st) =>
      let pc := if c.value > SEMVMX then .rmid .EINVAL else .semop
      some { s with table := s.table.change semid 0 st.sem_otime, pc := pc }
    | none => none
  | .setval, .fails e => some { s with pc := .rmid e }
  | .semop, .ok now =>
    match s.current with
    | some (semid, st) =>
      some { s with table := s.table.change semid (st.semval + c.value) (now + 1), pc := .malloc }
    | none => none
  | .semop, .fails e => some { s with pc := .rmid e }
  | .ftokExisting, .ok key => some { s with key := key, pc := .semgetExisting }
  | .ftokExisting, .fails e => some { s with pc := .rmid e }
  | .semgetExisting, .ok semid =>
    if (s.table.set semid).any fun st => st.key = s.key then
      some { s with semid := some semid, pc := .stat 0 }
    else none
  | .semgetExisting, .fails e => some { s with semid := none, pc := .rmid e }
  | .stat i, r =>
    if i < MAX_TRIES then
      match r with
      | .ok _ =>
        s.current.map fun (_, st) =>
          { s with pc := if st.sem_otime ≠ 0 then .malloc else .stat (i + 1) }
      | .fails e => some { s with pc := .rmid e }
    else some { s with pc := .rmid .ETIMEDOUT }
  | .malloc, .ok _ => some { s with pc := .returned (.ok s.semid) }
  | .malloc, .fails e => some { s with pc := .rmid e }
  | .rmid e, .ok _ =>
    if s.semid = none then some { s with pc := .returned (.error e) }
    else
      s.current.map fun (semid, _) =>
        { s with table := s.table.remove semid, pc := .returned (.error e) }
  | .rmid e, .fails _ => some { s with pc := .returned (.error e) }
  | .returned _, _ => none

def step (c : Call) (s : State) : Label → Option State
  | .call r => sysCall c s r
  | .create semid key =>
    match s.table.set semid with
    | none => some { s with table := s.table.create semid key }
    | some _ => none
  | .change semid semval sem_otime =>
    some { s with table := s.table.change semid semval sem_otime }
  | .remove semid =>
    match s.table.set semid with
    | some st => some { s with table := s.table.remove semid, removed := st.tag :: s.removed }
    | none => none

/-- A call on any table. -/
def system (c : Call) (table : Table) : Lts State Label where
  init := ⟨table, if c.creat then .open else .ftokExisting, 0, none, [], []⟩
  step := step c

/-- The set was in the table when the call was made, or has been created since. -/
def Existed (table : Table) (s : State) (tag : Nat) : Prop :=
  table.Has tag ∨ table.next ≤ tag ∧ tag < s.table.next

/-- Each set there was is still there, or the call's own, or others have removed it. -/
def Unharmed (table : Table) (s : State) : Prop :=
  ∀ tag, Existed table s tag → s.table.Has tag ∨ tag ∈ s.own ∨ tag ∈ s.removed

/-- The step is not one where `err` removes a set that the call has not created. -/
def keeps (s : State) : Label → Bool
  | .call (.ok _) =>
    match s.pc, s.current with
    | .rmid _, some (_, st) => st.tag ∈ s.own
    | _, _ => true
  | _ => true

-- ---------------------------------------------------------------------------
-- The table
-- ---------------------------------------------------------------------------

variable {c : Call} {t : Table} {s s' : State} {a : Label} {k : Bool} {semid tag : Nat}
variable {st : SemSet}

theorem Table.has_create (hfree : t.set semid = none) (key : Nat) :
    (t.create semid key).Has tag ↔ tag = t.next ∨ t.Has tag := by
  constructor
  · rintro ⟨semid', st, hset, rfl⟩
    rcases update_some hset with ⟨-, hnew⟩ | ⟨-, hold⟩
    · cases hnew
      exact .inl rfl
    · exact .inr ⟨semid', st, hold, rfl⟩
  · rintro (rfl | ⟨semid', st, hset, rfl⟩)
    · exact ⟨semid, _, update_self .., rfl⟩
    · refine ⟨semid', st, ?_, rfl⟩
      have hne : semid' ≠ semid := by
        rintro rfl
        rw [hfree] at hset
        cases hset
      exact (update_of_ne hne _ _).trans hset

theorem Table.has_remove (hset : t.set semid = some st) :
    (t.remove semid).Has tag ↔ t.Has tag ∧ tag ≠ st.tag := by
  constructor
  · rintro ⟨semid', st', hset', rfl⟩
    rcases update_some hset' with ⟨-, hnew⟩ | ⟨hne, hold⟩
    · cases hnew
    · exact ⟨⟨semid', st', hold, rfl⟩, fun htag => hne (t.unique _ _ _ _ hold hset htag)⟩
  · rintro ⟨⟨semid', st', hset', rfl⟩, hne⟩
    refine ⟨semid', st', ?_, rfl⟩
    have hother : semid' ≠ semid := by
      rintro rfl
      rw [hset] at hset'
      cases hset'
      exact hne rfl
    exact (update_of_ne hother _ _).trans hset'

theorem Table.has_change (t : Table) (semid semval sem_otime tag : Nat) :
    (t.change semid semval sem_otime).Has tag ↔ t.Has tag := by
  constructor
  · rintro ⟨semid', st, hset, rfl⟩
    rcases update_some hset with ⟨-, hnew⟩ | ⟨-, hold⟩
    · obtain ⟨st', hset', rfl⟩ := Option.map_eq_some_iff.mp hnew
      exact ⟨semid, st', hset', rfl⟩
    · exact ⟨semid', st, hold, rfl⟩
  · rintro ⟨semid', st, hset, rfl⟩
    by_cases heq : semid' = semid
    · subst heq
      refine ⟨semid', { st with semval := semval, sem_otime := sem_otime }, ?_, rfl⟩
      show update t.set semid' _ semid' = _
      rw [update_self, hset]
      rfl
    · exact ⟨semid', st, (update_of_ne heq _ _).trans hset, rfl⟩

theorem current_eq_some (h : s.current = some (semid, st)) :
    s.semid = some semid ∧ s.table.set semid = some st := by
  simp only [State.current, Option.bind_eq_some_iff, Option.map_eq_some_iff, Prod.mk.injEq] at h
  obtain ⟨semid', hsemid, st', hset, rfl, rfl⟩ := h
  exact ⟨hsemid, hset⟩

/-- How a step changes the sets, and whether it keeps those of others. -/
inductive Moves (s : State) : Bool → State → Prop
  | same {s' : State} (htable : ∀ tag, s'.table.Has tag ↔ s.table.Has tag)
      (hnext : s'.table.next = s.table.next) (hown : s'.own = s.own)
      (hremoved : s'.removed = s.removed) : Moves s true s'
  | create {s' : State} (semid key : Nat) (hfree : s.table.set semid = none)
      (htable : s'.table = s.table.create semid key) (hown : ∀ tag ∈ s.own, tag ∈ s'.own)
      (hnew : ∀ tag ∈ s'.own, tag ∈ s.own ∨ tag = s.table.next)
      (hremoved : s'.removed = s.removed) : Moves s true s'
  | removed {s' : State} (semid : Nat) (st : SemSet) (hset : s.table.set semid = some st)
      (htable : s'.table = s.table.remove semid) (hown : s'.own = s.own)
      (hremoved : s'.removed = st.tag :: s.removed) : Moves s true s'
  | rmid {s' : State} (semid : Nat) (st : SemSet) (hset : s.table.set semid = some st)
      (htable : s'.table = s.table.remove semid) (hown : s'.own = s.own)
      (hremoved : s'.removed = s.removed) : Moves s (decide (st.tag ∈ s.own)) s'

theorem Moves.goto (hstep : { s with pc := pc, semid := semid?, key := key } = s') :
    Moves s true s' := by
  subst hstep
  exact .same (fun _ => Iff.rfl) rfl rfl rfl

/-- The one inversion of a step that the results below use. -/
theorem sysCall_moves (hstep : sysCall c s r = some s') : Moves s (keeps s (.call r)) s' := by
  unfold sysCall at hstep
  unfold keeps
  cases hpc : s.pc with
  | «open» | ftok | ftokExisting =>
    cases r <;> simp only [hpc, Option.some.injEq] at hstep ⊢ <;> exact .goto hstep
  | semgetExcl =>
    cases r with
    | ok semid =>
      simp only [hpc] at hstep ⊢
      split at hstep
      · rename_i hfree
        cases hstep
        exact .create semid s.key hfree rfl (fun tag htag => List.mem_cons_of_mem _ htag)
          (fun tag htag => (List.mem_cons.mp htag).symm) rfl
      · cases hstep
    | fails e =>
      simp only [hpc, Option.some.injEq] at hstep ⊢
      exact .goto hstep
  | setval | semop =>
    cases r with
    | ok now =>
      simp only [hpc] at hstep ⊢
      split at hstep
      · cases hstep
        exact .same (Table.has_change _ _ _ _) rfl rfl rfl
      · cases hstep
    | fails e =>
      simp only [hpc, Option.some.injEq] at hstep ⊢
      exact .goto hstep
  | semgetExisting =>
    cases r with
    | ok semid =>
      simp only [hpc, Option.ite_none_right_eq_some, Option.some.injEq] at hstep ⊢
      exact .goto hstep.2
    | fails e =>
      simp only [hpc, Option.some.injEq] at hstep ⊢
      exact .goto hstep
  | stat i =>
    simp only [hpc] at hstep ⊢
    split at hstep
    · cases r with
      | ok now =>
        simp only [Option.map_eq_some_iff] at hstep
        obtain ⟨⟨semid, st⟩, -, heq⟩ := hstep
        exact .goto heq
      | fails e => exact .goto (Option.some.inj hstep)
    · cases r <;> exact .goto (Option.some.inj hstep)
  | malloc =>
    cases r <;> simp only [hpc, Option.some.injEq] at hstep ⊢ <;> exact .goto hstep
  | rmid e =>
    cases r with
    | ok now =>
      simp only [hpc] at hstep ⊢
      split at hstep
      · rename_i hnone
        have hcurrent : s.current = none := by rw [State.current, hnone]; rfl
        simp only [hcurrent]
        exact .goto (Option.some.inj hstep)
      · simp only [Option.map_eq_some_iff] at hstep
        obtain ⟨⟨semid, st⟩, hcurrent, rfl⟩ := hstep
        simp only [hcurrent]
        exact .rmid semid st (current_eq_some hcurrent).2 rfl rfl rfl
    | fails e' =>
      simp only [hpc, Option.some.injEq] at hstep ⊢
      exact .goto hstep
  | returned sem =>
    cases r <;> simp only [hpc] at hstep <;> cases hstep

theorem step_moves (hstep : step c s a = some s') : Moves s (keeps s a) s' := by
  cases a with
  | call r => exact sysCall_moves hstep
  | create semid key =>
    simp only [step] at hstep
    split at hstep
    · rename_i hfree
      cases hstep
      exact .create semid key hfree rfl (fun _ htag => htag) (fun _ htag => .inl htag) rfl
    · cases hstep
  | change semid semval sem_otime =>
    cases hstep
    exact .same (Table.has_change _ _ _ _) rfl rfl rfl
  | remove semid =>
    simp only [step] at hstep
    split at hstep
    · rename_i st hset
      cases hstep
      exact .removed semid st hset rfl rfl rfl
    · cases hstep

-- ---------------------------------------------------------------------------
-- Runs
-- ---------------------------------------------------------------------------

/-- `table` is where the run began. -/
structure Inv (table : Table) (s : State) : Prop where
  next_le : table.next ≤ s.table.next
  old : ∀ tag, s.table.Has tag → tag < table.next → table.Has tag
  gone : ∀ tag ∈ s.removed, tag < s.table.next ∧ ¬ s.table.Has tag

variable {table : Table}

theorem Inv.existed_of_has (h : Inv table s) (hhas : s.table.Has tag) : Existed table s tag := by
  by_cases hlt : tag < table.next
  · exact .inl (h.old tag hhas hlt)
  · exact .inr ⟨Nat.le_of_not_lt hlt, hhas.lt⟩

theorem Inv.lt_of_existed (h : Inv table s) (hexisted : Existed table s tag) :
    tag < s.table.next := by
  rcases hexisted with hhas | ⟨-, hlt⟩
  · exact Nat.lt_of_lt_of_le hhas.lt h.next_le
  · exact hlt

theorem inv_moves (h : Inv table s) (hmove : Moves s k s') : Inv table s' := by
  cases hmove with
  | same htable hnext hown hremoved =>
    refine ⟨by rw [hnext]; exact h.next_le, fun tag hhas => h.old tag ((htable tag).mp hhas), ?_⟩
    rw [hremoved, hnext]
    intro tag htag
    rw [htable]
    exact h.gone tag htag
  | create semid key hfree htable hown hnew hremoved =>
    refine ⟨?_, fun tag hhas hlt => ?_, fun tag htag => ?_⟩
    · rw [htable]
      exact Nat.le_succ_of_le h.next_le
    · rw [htable, Table.has_create hfree] at hhas
      rcases hhas with rfl | hhas
      · exact absurd h.next_le (Nat.not_le.mpr hlt)
      · exact h.old tag hhas hlt
    · rw [hremoved] at htag
      obtain ⟨hlt, hno⟩ := h.gone tag htag
      rw [htable, Table.has_create hfree]
      refine ⟨Nat.lt_succ_of_lt hlt, ?_⟩
      rintro (rfl | hhas)
      · exact Nat.lt_irrefl _ hlt
      · exact hno hhas
  | removed semid st hset htable hown hremoved =>
    refine ⟨by rw [htable]; exact h.next_le, fun tag hhas => ?_, fun tag htag => ?_⟩
    · rw [htable, Table.has_remove hset] at hhas
      exact h.old tag hhas.1
    · rw [htable, Table.has_remove hset]
      rw [hremoved] at htag
      rcases List.mem_cons.mp htag with rfl | htag
      · exact ⟨s.table.born _ _ hset, fun hhas => hhas.2 rfl⟩
      · exact ⟨(h.gone tag htag).1, fun hhas => (h.gone tag htag).2 hhas.1⟩
  | rmid semid st hset htable hown hremoved =>
    refine ⟨by rw [htable]; exact h.next_le, fun tag hhas => ?_, fun tag htag => ?_⟩
    · rw [htable, Table.has_remove hset] at hhas
      exact h.old tag hhas.1
    · rw [htable, Table.has_remove hset]
      rw [hremoved] at htag
      exact ⟨(h.gone tag htag).1, fun hhas => (h.gone tag htag).2 hhas.1⟩

/-- A set is harmed where `err` removes one that is not the call's own, and stays so. -/
theorem unharmed_moves (h : Inv table s) (hmove : Moves s k s') :
    Unharmed table s' ↔ Unharmed table s ∧ k = true := by
  cases hmove with
  | same htable hnext hown hremoved =>
    simp only [Unharmed, Existed, htable, hnext, hown, hremoved, and_true]
  | create semid key hfree htable hown hnew hremoved =>
    simp only [and_true]
    constructor <;> intro hall tag hexisted
    · have hlt := h.lt_of_existed hexisted
      have hexisted' : Existed table s' tag :=
        hexisted.imp_right fun hnew => ⟨hnew.1, by rw [htable]; exact Nat.lt_succ_of_lt hnew.2⟩
      rcases hall tag hexisted' with hhas | hmine | hgone
      · rw [htable, Table.has_create hfree] at hhas
        exact .inl (hhas.resolve_left (Nat.ne_of_lt hlt))
      · exact .inr (.inl ((hnew tag hmine).resolve_right (Nat.ne_of_lt hlt)))
      · exact .inr (.inr (hremoved ▸ hgone))
    · rw [htable, Table.has_create hfree, hremoved]
      by_cases heq : tag = s.table.next
      · exact .inl (.inl heq)
      · have hold : Existed table s tag := hexisted.imp_right fun hnew => ⟨hnew.1, by
          rw [htable] at hnew
          exact Nat.lt_of_le_of_ne (Nat.le_of_lt_succ hnew.2) heq⟩
        exact (hall tag hold).imp .inr (Or.imp_left (hown tag))
  | removed semid st hset htable hown hremoved =>
    simp only [and_true, Unharmed, Existed, hown, hremoved, htable, Table.has_remove hset]
    refine forall_congr' fun tag => imp_congr Iff.rfl ?_
    by_cases heq : tag = st.tag
    · have hhas : s.table.Has tag := ⟨semid, st, hset, heq.symm⟩
      simp [heq ▸ hhas, heq]
    · simp [heq]
  | rmid semid st hset htable hown hremoved =>
    have hhas : s.table.Has st.tag := ⟨semid, st, hset, rfl⟩
    simp only [Unharmed, Existed, hown, hremoved, htable, Table.has_remove hset, decide_eq_true_eq]
    constructor
    · intro hall
      refine ⟨fun tag hexisted => (hall tag hexisted).imp_left And.left, ?_⟩
      rcases hall st.tag (h.existed_of_has hhas) with hleft | hmine | hgone
      · exact absurd rfl hleft.2
      · exact hmine
      · exact absurd hhas (h.gone st.tag hgone).2
    · rintro ⟨hall, hmine⟩ tag hexisted
      by_cases heq : tag = st.tag
      · exact .inr (.inl (heq ▸ hmine))
      · exact (hall tag hexisted).imp_left fun hhas => ⟨hhas, heq⟩

theorem inv_init (c : Call) (table : Table) : Inv table (system c table).init :=
  ⟨Nat.le_refl _, fun _ hhas _ => hhas, nofun⟩

/-- Wherever a call has come to, and so where it has failed, the sets of others are
unharmed exactly if `err` has removed none that the call had not created. -/
theorem unharmed_iff (c : Call) (table : Table) (labels : List Label) (s : State)
    (hrun : (system c table).exec (system c table).init labels = some s) :
    Unharmed table s ↔ (system c table).execIf keeps (system c table).init labels = some s := by
  have hstart : Unharmed table (system c table).init := fun tag hexisted =>
    .inl (hexisted.elim id fun hnew => absurd hnew.1 (Nat.not_le.mpr hnew.2))
  have hstep (s : State) (a : Label) (s' : State) (hs : Inv table s)
      (ha : (system c table).step s a = some s') :
      Inv table s' ∧ (¬ Unharmed table s' ↔ ¬ Unharmed table s ∨ keeps s a = false) := by
    have hmove := step_moves ha
    refine ⟨inv_moves hs hmove, ?_⟩
    rw [unharmed_moves hs hmove, not_and_or, Bool.not_eq_true]
  obtain ⟨-, hharmed⟩ := exec_iff_execIf hstep (inv_init c table) hrun
  rw [← not_iff_not, hharmed]
  simp [hstart]

/-- A set that another process has created and not yet initialised. -/
def fresh : Table where
  set semid := if semid = 0 then some ⟨0, 7, 0, 0⟩ else none
  next := 1
  born semid st h := by
    split at h
    · cases h
      exact Nat.one_pos
    · cases h
  unique semid semid' st st' h h' _ := by
    split at h <;> cases h
    split at h' <;> cases h'
    simp_all

/-- An opener finds no set for the key it has been given. -/
theorem unharmed_iff_none : ∃ s, (system ⟨false, false, 0, 0⟩ fresh).exec
    (system ⟨false, false, 0, 0⟩ fresh).init [.call (.ok 8), .call (.fails .ENOENT),
      .call (.ok 0)] = some s ∧ s.pc = .returned (.error .ENOENT) ∧ Unharmed fresh s := by
  obtain ⟨s, hrun, hret⟩ : ∃ s, (system ⟨false, false, 0, 0⟩ fresh).exec
      (system ⟨false, false, 0, 0⟩ fresh).init [.call (.ok 8), .call (.fails .ENOENT),
        .call (.ok 0)] = some s ∧ s.pc = .returned (.error .ENOENT) := ⟨_, rfl, rfl⟩
  exact ⟨s, hrun, hret, (unharmed_iff _ _ _ s hrun).mpr (by rw [← hrun]; rfl)⟩

/-- An opener waits for a slow creator, and removes its set. -/
theorem opener_removes : ∃ s, (system ⟨false, false, 0, 0⟩ fresh).exec
    (system ⟨false, false, 0, 0⟩ fresh).init ([.call (.ok 7), .call (.ok 0)] ++
      List.replicate 12 (.call (.ok 0))) = some s ∧
    s.pc = .returned (.error .ETIMEDOUT) ∧ ¬ Unharmed fresh s := by
  refine ⟨_, rfl, rfl, fun h => ?_⟩
  have hset : fresh.set 0 = some ⟨0, 7, 0, 0⟩ := rfl
  rcases h 0 (.inl ⟨0, _, hset, rfl⟩) with hhas | hmine | hgone
  · exact absurd rfl ((Table.has_remove hset).mp hhas).2
  · cases hmine
  · cases hgone

end DdsAuto.MyPxsemSvsem
