import DdsAuto.Lib.Lts
import DdsAuto.MyPxsemMmap.Open
import Mathlib.Data.Finset.Basic
import Mathlib.Data.Finset.Option

/-!
# What a call of `mysem_open` leaves behind

One call of `mysem_open` against arbitrary results of its system calls, with an
account of what it has acquired: descriptors, mappings and the file it created.

The label `err` gives everything back that the variables `fd`, `sem` and
`created` name. The retry after a failed `stat` closes `fd` but does not unmap
`sem`: from there on the mapping is given back only if the call fails at `err`
before `sem` is assigned again. `debris_iff`: a run leaves nothing behind exactly
when it assigns `sem`, or returns past `err`, only while `sem` holds no mapping,
and the two calls that give something back succeed.
-/

namespace DdsAuto.MyPxsemMmap.Debris

open Lts

/-- The calls on the mutex and the condition variable whose result is looked at. -/
inductive Init
  | mutexattrInit
  | mutexInit
  | condattrInit
  | condInit
  deriving DecidableEq, Repr

def Init.next : Init → Option Init
  | .mutexattrInit => some .mutexInit
  | .mutexInit => some .condattrInit
  | .condattrInit => some .condInit
  | .condInit => none

/-- Where the call is: before the system call named. `unlink`, `munmap` and `close`
are those at `err`, with the `errno` it saves; `MAP_FAILED` is `none`. -/
inductive Pc
  | again
  | write
  | mmap
  | initialise (call : Init)
  | fchmod
  | closeCreated
  | existing
  | mmapExisting
  | stat (i : Nat)
  | closeExisting
  | closeAgain
  | unlink (errno : Errno)
  | munmap (errno : Errno)
  | close (errno : Errno)
  | returned (sem : Except Errno (Option Nat))

/-- The result of a system call; `marked` is that of a `stat` that finds the
user-execute bit set. -/
inductive Outcome
  | done
  | fails (errno : Errno)
  | marked
  deriving DecidableEq, Repr

/-- The variables of the call, and what it has acquired and not given back:
`linked` if the file it created still has its name. Descriptors and mappings are
numbered in the order they are made. -/
structure State where
  pc : Pc
  fd : Option Nat
  sem : Option Nat
  created : Bool
  fds : Finset Nat
  maps : Finset Nat
  linked : Bool
  next : Nat

/-- `open` returns a descriptor. -/
def State.openFile (s : State) (pc : Pc) : State :=
  { s with pc := pc, fd := some s.next, fds := insert s.next s.fds, next := s.next + 1 }

/-- `mmap` returns a mapping. -/
def State.map (s : State) (pc : Pc) : State :=
  { s with pc := pc, sem := some s.next, maps := insert s.next s.maps, next := s.next + 1 }

/-- `close(fd)`; the descriptor is gone whatever it returns. -/
def State.closeFd (s : State) (pc : Pc) : State :=
  { s with pc := pc, fds := s.fds \ s.fd.toFinset }

/-- `goto err` if the call fails. -/
def State.orErr (s : State) (r : Outcome) (pc : Pc) : Option State :=
  match r with
  | .done => some { s with pc := pc }
  | .fails e => some { s with pc := .unlink e }
  | .marked => none

def State.mmap (s : State) (r : Outcome) (pc : Pc) : Option State :=
  match r with
  | .done => some (s.map pc)
  | .fails e => some { s with sem := none, pc := .unlink e }
  | .marked => none

/-- The next system call of `mysem_open` and what follows from its result. -/
def step (c : Call) (s : State) (r : Outcome) : Option State :=
  match s.pc with
  | .again =>
    if c.creat then
      match r with
      | .done => some { s.openFile .write with created := true, linked := true }
      | .fails e =>
        if e = .EEXIST ∧ c.excl = false then some { s with fd := none, pc := .existing }
        else some { s with fd := none, pc := .returned (.error e) }
      | .marked => none
    else some { s with pc := .existing }
  | .write => s.orErr r .mmap
  | .mmap => s.mmap r (.initialise .mutexattrInit)
  | .initialise call =>
    match call.next with
    | some call' => s.orErr r (.initialise call')
    | none => s.orErr r (if c.value > SEM_VALUE_MAX then .unlink .EINVAL else .fchmod)
  | .fchmod => s.orErr r .closeCreated
  | .closeCreated => some (s.closeFd (.returned (.ok s.sem)))
  | .existing =>
    match r with
    | .done => some (s.openFile .mmapExisting)
    | .fails e =>
      if e = .ENOENT ∧ c.creat = true then some { s with fd := none, pc := .again }
      else some { s with fd := none, pc := .unlink e }
    | .marked => none
  | .mmapExisting => s.mmap r (.stat 0)
  | .stat i =>
    if i < MAX_TRIES then
      match r with
      | .done => some { s with pc := .closeExisting }
      | .fails e =>
        if e = .ENOENT ∧ c.creat = true then some { s with pc := .closeAgain }
        else some { s with pc := .unlink e }
      | .marked => some { s with pc := .stat (i + 1) }
    else some { s with pc := .unlink .ETIMEDOUT }
  | .closeExisting => some (s.closeFd (.returned (.ok s.sem)))
  | .closeAgain => some (s.closeFd .again)
  | .unlink e =>
    if s.created then
      match r with
      | .done => some { s with linked := false, pc := .munmap e }
      | .fails _ => some { s with pc := .munmap e }
      | .marked => none
    else some { s with pc := .munmap e }
  | .munmap e =>
    match s.sem, r with
    | none, _ => some { s with pc := .close e }
    | some m, .done => some { s with maps := s.maps.erase m, pc := .close e }
    | some _, .fails _ => some { s with pc := .close e }
    | some _, .marked => none
  | .close e => some (s.closeFd (.returned (.error e)))
  | .returned _ => none

def system (c : Call) : Lts State Outcome where
  init := ⟨.again, none, none, false, ∅, ∅, false, 0⟩
  step := step c

/-- The call has gained the mapping it returns, or nothing. -/
def Clean (s : State) : Except Errno (Option Nat) → Prop
  | .ok sem => s.fds = ∅ ∧ ∃ m, sem = some m ∧ s.maps = {m}
  | .error _ => s.fds = ∅ ∧ s.maps = ∅ ∧ s.linked = false

/-- The step keeps `err` able to give everything back: it neither assigns `sem` nor
returns past `err` while `sem` holds a mapping, and what `err` gives back goes. -/
def keeps (c : Call) (s : State) (r : Outcome) : Bool :=
  match s.pc, r with
  | .again, .fails e => !c.creat || (e = .EEXIST && !c.excl) || s.sem.isNone
  | .mmap, _ | .mmapExisting, _ => s.sem.isNone
  | .unlink _, .fails _ => !s.created
  | .munmap _, .fails _ => s.sem.isNone
  | _, _ => true

-- ---------------------------------------------------------------------------
-- The accounts
-- ---------------------------------------------------------------------------

/-- How far the call is with what it holds. -/
inductive Phase
  | outside
  | creating
  | existing
  | unlinking
  | unmapping
  | closing
  | failed
  | succeeded
  deriving DecidableEq, Repr

def Pc.phase : Pc → Phase
  | .again | .existing => .outside
  | .write | .mmap | .initialise _ | .fchmod | .closeCreated => .creating
  | .mmapExisting | .stat _ | .closeExisting | .closeAgain => .existing
  | .unlink _ => .unlinking
  | .munmap _ => .unmapping
  | .close _ => .closing
  | .returned (.error _) => .failed
  | .returned (.ok _) => .succeeded

/-- The point is one where `sem` has been assigned for the file that is open. -/
def Pc.Mapped : Pc → Prop
  | .initialise _ | .fchmod | .closeCreated | .stat _ | .closeExisting | .closeAgain => True
  | _ => False

/-- The mappings the call has to have: the one of `sem`, until `err` has given it back. -/
def Phase.due (sem : Option Nat) : Phase → Finset Nat
  | .closing | .failed => ∅
  | _ => sem.toFinset

/-- The file the call has created has to have its name, until `err` has unlinked it. -/
def Phase.dueLinked (created : Bool) : Phase → Bool
  | .unmapping | .closing | .failed => false
  | _ => created

/-- The descriptors it has to have. -/
def Phase.dueFds (fd : Option Nat) : Phase → Finset Nat
  | .outside | .failed | .succeeded => ∅
  | _ => fd.toFinset

/-- Something is held that it should not be. -/
def State.Leaks (s : State) : Prop :=
  (s.maps \ s.pc.phase.due s.sem).Nonempty ∨
    s.linked = true ∧ s.pc.phase.dueLinked s.created = false

structure Inv (s : State) : Prop where
  fds : s.fds = s.pc.phase.dueFds s.fd
  maps : s.pc.phase.due s.sem ⊆ s.maps
  linked : s.pc.phase.dueLinked s.created = true → s.linked = true
  unborn : ∀ m ∈ s.maps, m < s.next
  owned : s.linked = true → s.created = true
  others : s.pc.phase = .outside ∨ s.pc.phase = .existing → s.created = false
  mapped : s.pc.Mapped → s.sem.isSome = true
  result : ∀ sem, s.pc = .returned (.ok sem) → sem = s.sem ∧ s.sem.isSome = true

/-- What one step can do, and whether it keeps the account. -/
inductive Moves (s : State) : Bool → State → Prop
  /-- Nothing but the point changes. -/
  | goto (pc : Pc) (hphase : pc.phase = s.pc.phase) (hmapped : pc.Mapped → s.sem.isSome = true)
      (hret : ∀ sem, pc ≠ .returned sem) : Moves s true { s with pc := pc }
  | fail (e : Errno) (hphase : s.pc.phase = .creating ∨ s.pc.phase = .existing) :
      Moves s true { s with pc := .unlink e }
  /-- `open` fails. -/
  | closed (pc : Pc) (hfrom : s.pc.phase = .outside)
      (hto : pc.phase = .outside ∨ ∃ e, pc = .unlink e) :
      Moves s true { s with fd := none, pc := pc }
  | leave (e : Errno) (hfrom : s.pc.phase = .outside) :
      Moves s s.sem.isNone { s with fd := none, pc := .returned (.error e) }
  | create (hfrom : s.pc.phase = .outside) :
      Moves s true { s.openFile .write with created := true, linked := true }
  | openExisting (hfrom : s.pc.phase = .outside) : Moves s true (s.openFile .mmapExisting)
  | map (pc : Pc) (hfrom : s.pc.phase = .creating ∨ s.pc.phase = .existing)
      (hphase : pc.phase = s.pc.phase) (hret : ∀ sem, pc ≠ .returned sem) :
      Moves s s.sem.isNone (s.map pc)
  | mapFails (e : Errno) (hfrom : s.pc.phase = .creating ∨ s.pc.phase = .existing) :
      Moves s s.sem.isNone { s with sem := none, pc := .unlink e }
  | succeed (hfrom : s.pc.phase = .creating ∨ s.pc.phase = .existing)
      (hmapped : s.pc.Mapped) : Moves s true (s.closeFd (.returned (.ok s.sem)))
  | retry (hfrom : s.pc.phase = .existing) : Moves s true (s.closeFd .again)
  | unlink (e : Errno) (hfrom : s.pc.phase = .unlinking) (linked : Bool)
      (hlinked : linked = true → s.linked = true) :
      Moves s (!s.created || !linked) { s with linked := linked, pc := .munmap e }
  | munmap (e : Errno) (hfrom : s.pc.phase = .unmapping) (maps : Finset Nat) (kept : Bool)
      (hsub : maps ⊆ s.maps)
      (hleft : maps.Nonempty ↔ (s.maps \ s.sem.toFinset).Nonempty ∨ kept = false) :
      Moves s kept { s with maps := maps, pc := .close e }
  | close (e : Errno) (hfrom : s.pc.phase = .closing) :
      Moves s true (s.closeFd (.returned (.error e)))

variable {c : Call} {s s' : State} {r : Outcome} {k : Bool} {pc : Pc} {e : Errno}

-- ---------------------------------------------------------------------------
-- What a system call does
-- ---------------------------------------------------------------------------

theorem orErr_moves (hstep : s.orErr r pc = some s') (hphase : pc.phase = s.pc.phase)
    (hmapped : pc.Mapped → s.sem.isSome = true)
    (hfrom : s.pc.phase = .creating ∨ s.pc.phase = .existing) : Moves s true s' := by
  cases r with
  | done =>
    cases hstep
    refine .goto pc hphase hmapped ?_
    rintro sem rfl
    cases sem <;> rcases hfrom with hfrom | hfrom <;> rw [hfrom] at hphase <;> cases hphase
  | fails e =>
    cases hstep
    exact .fail e hfrom
  | marked => cases hstep

theorem mmap_moves (hstep : s.mmap r pc = some s') (hphase : pc.phase = s.pc.phase)
    (hfrom : s.pc.phase = .creating ∨ s.pc.phase = .existing) : Moves s s.sem.isNone s' := by
  cases r with
  | done =>
    cases hstep
    refine .map pc hfrom hphase ?_
    rintro sem rfl
    cases sem <;> rcases hfrom with hfrom | hfrom <;> rw [hfrom] at hphase <;> cases hphase
  | fails e =>
    cases hstep
    exact .mapFails e hfrom
  | marked => cases hstep

/-- The one inversion of a step that the results below use. -/
theorem step_moves (h : Inv s) (hstep : step c s r = some s') : Moves s (keeps c s r) s' := by
  have hmapped := h.mapped
  unfold step at hstep
  unfold keeps
  cases hpc : s.pc with
  | again =>
    have hfrom : s.pc.phase = .outside := by rw [hpc]; rfl
    simp only [hpc] at hstep ⊢
    cases hcreat : c.creat with
    | false =>
      simp only [hcreat] at hstep
      cases hstep
      have hgoto : Moves s true { s with pc := .existing } :=
        .goto .existing (by rw [hfrom]; rfl) (fun hm => hm.elim) nofun
      cases r <;> simpa using hgoto
    | true =>
      simp only [hcreat, if_true] at hstep
      cases r with
      | done =>
        cases hstep
        exact .create hfrom
      | fails e =>
        simp only at hstep
        split at hstep
        · rename_i hexist
          cases hstep
          have hclosed := Moves.closed .existing hfrom (.inl rfl)
          simpa [hexist.1, hexist.2] using hclosed
        · rename_i hexist
          cases hstep
          have hleave := Moves.leave e hfrom
          have hno : (decide (e = .EEXIST) && !c.excl) = false := by
            simpa using hexist
          simpa [hno] using hleave
      | marked => cases hstep
  | write =>
    simp only [hpc] at hstep ⊢
    exact orErr_moves hstep (by rw [hpc]; rfl) (fun hm => hm.elim) (by rw [hpc]; exact .inl rfl)
  | mmap =>
    simp only [hpc] at hstep ⊢
    exact mmap_moves hstep (by rw [hpc]; rfl) (by rw [hpc]; exact .inl rfl)
  | initialise call =>
    rw [hpc] at hmapped
    have hfrom : s.pc.phase = .creating := by rw [hpc]; rfl
    simp only [hpc] at hstep ⊢
    cases hnext : call.next with
    | some call' =>
      simp only [hnext] at hstep
      exact orErr_moves hstep (by rw [hfrom]; rfl) (fun _ => hmapped trivial) (.inl hfrom)
    | none =>
      simp only [hnext] at hstep
      by_cases hmax : c.value > SEM_VALUE_MAX
      · rw [if_pos hmax] at hstep
        cases r with
        | done =>
          cases hstep
          exact .fail .EINVAL (.inl hfrom)
        | fails e =>
          cases hstep
          exact .fail e (.inl hfrom)
        | marked => cases hstep
      · rw [if_neg hmax] at hstep
        exact orErr_moves hstep (by rw [hfrom]; rfl) (fun _ => hmapped trivial) (.inl hfrom)
  | fchmod =>
    rw [hpc] at hmapped
    simp only [hpc] at hstep ⊢
    exact orErr_moves hstep (by rw [hpc]; rfl) (fun _ => hmapped trivial)
      (by rw [hpc]; exact .inl rfl)
  | closeCreated =>
    simp only [hpc, Option.some.injEq] at hstep ⊢
    subst hstep
    exact .succeed (by rw [hpc]; exact .inl rfl) (by rw [hpc]; trivial)
  | existing =>
    have hfrom : s.pc.phase = .outside := by rw [hpc]; rfl
    simp only [hpc] at hstep ⊢
    cases r with
    | done =>
      cases hstep
      exact .openExisting hfrom
    | fails e =>
      simp only at hstep
      split at hstep
      · cases hstep
        exact .closed .again hfrom (.inl rfl)
      · cases hstep
        exact .closed (.unlink e) hfrom (.inr ⟨e, rfl⟩)
    | marked => cases hstep
  | mmapExisting =>
    simp only [hpc] at hstep ⊢
    exact mmap_moves hstep (by rw [hpc]; rfl) (by rw [hpc]; exact .inr rfl)
  | stat i =>
    rw [hpc] at hmapped
    have hfrom : s.pc.phase = .existing := by rw [hpc]; rfl
    have hgoto {pc : Pc} (hphase : pc.phase = .existing) (hret : ∀ sem, pc ≠ .returned sem) :
        Moves s true { s with pc := pc } :=
      .goto pc (by rw [hfrom, hphase]) (fun _ => hmapped trivial) hret
    simp only [hpc] at hstep ⊢
    split at hstep
    · cases r with
      | done =>
        cases hstep
        exact hgoto rfl nofun
      | fails e =>
        simp only at hstep
        split at hstep
        · cases hstep
          exact hgoto rfl nofun
        · cases hstep
          exact .fail e (.inr hfrom)
      | marked =>
        cases hstep
        exact hgoto rfl nofun
    · cases hstep
      exact .fail .ETIMEDOUT (.inr hfrom)
  | closeExisting =>
    simp only [hpc, Option.some.injEq] at hstep ⊢
    subst hstep
    exact .succeed (by rw [hpc]; exact .inr rfl) (by rw [hpc]; trivial)
  | closeAgain =>
    simp only [hpc, Option.some.injEq] at hstep ⊢
    subst hstep
    exact .retry (by rw [hpc]; rfl)
  | unlink e =>
    have hfrom : s.pc.phase = .unlinking := by rw [hpc]; rfl
    simp only [hpc] at hstep ⊢
    cases hcreated : s.created with
    | false =>
      simp only [hcreated] at hstep
      cases hstep
      have hmove := Moves.unlink e hfrom s.linked id
      simp only [hcreated] at hmove
      cases r <;> exact hmove
    | true =>
      have hlinked : s.linked = true := h.linked (by rw [hfrom]; exact hcreated)
      simp only [hcreated, if_true] at hstep
      cases r with
      | done =>
        cases hstep
        have hmove := Moves.unlink e hfrom false nofun
        rwa [hcreated] at hmove
      | fails e' =>
        cases hstep
        have hmove := Moves.unlink e hfrom s.linked id
        have hkept : (!s.created || !s.linked) = false := by rw [hcreated, hlinked]; rfl
        rwa [hkept, hcreated] at hmove
      | marked => cases hstep
  | munmap e =>
    have hfrom : s.pc.phase = .unmapping := by rw [hpc]; rfl
    simp only [hpc] at hstep ⊢
    cases hsem : s.sem with
    | none =>
      simp only [hsem] at hstep
      cases hstep
      have hmove := Moves.munmap e hfrom s.maps true (Finset.Subset.refl _) (by simp [hsem])
      simp only [hsem] at hmove
      cases r <;> exact hmove
    | some m =>
      have hmaps : m ∈ s.maps := h.maps (by rw [hfrom, hsem]; simp [Phase.due])
      simp only [hsem] at hstep
      cases r with
      | done =>
        cases hstep
        have hmove := Moves.munmap e hfrom (s.maps.erase m) true (Finset.erase_subset _ _)
          (by simp [hsem, Finset.sdiff_singleton_eq_erase])
        simp only [hsem] at hmove
        exact hmove
      | fails e' =>
        cases hstep
        have hne : s.maps.Nonempty := ⟨m, hmaps⟩
        have hmove := Moves.munmap e hfrom s.maps false (Finset.Subset.refl _) (by simp [hne])
        simp only [hsem] at hmove
        exact hmove
      | marked => cases hstep
  | close e =>
    simp only [hpc, Option.some.injEq] at hstep ⊢
    subst hstep
    exact .close e (by rw [hpc]; rfl)
  | returned sem =>
    simp only [hpc] at hstep
    cases hstep

-- ---------------------------------------------------------------------------
-- The account of a run
-- ---------------------------------------------------------------------------

theorem phase_outside (h : pc.phase = .outside) : pc = .again ∨ pc = .existing := by
  cases pc with
  | again => exact .inl rfl
  | existing => exact .inr rfl
  | returned sem => cases sem <;> cases h
  | _ => cases h

theorem inv_moves (h : Inv s) (hmove : Moves s k s') : Inv s' := by
  have hfds := h.fds
  have hmaps := h.maps
  have hlinked := h.linked
  cases hmove with
  | goto pc hphase hmapped hret =>
    refine ⟨?_, ?_, ?_, h.unborn, h.owned, ?_, hmapped,
      fun sem hsem => absurd hsem (hret (.ok sem))⟩
    · rw [hphase]
      exact hfds
    · rw [hphase]
      exact hmaps
    · rw [hphase]
      exact hlinked
    · rw [hphase]
      exact h.others
  | fail e hphase =>
    refine ⟨?_, ?_, ?_, h.unborn, h.owned, nofun, fun hm => hm.elim, nofun⟩ <;>
      rcases hphase with hphase | hphase <;> rw [hphase] at hfds hmaps hlinked <;> assumption
  | closed pc hfrom hto =>
    have hcreated := h.others (.inl hfrom)
    rw [hfrom] at hfds hmaps hlinked
    rcases hto with hto | ⟨e, rfl⟩
    · refine ⟨?_, ?_, ?_, h.unborn, h.owned, fun _ => hcreated, ?_, ?_⟩
      · rw [hto]
        exact hfds
      · rw [hto]
        exact hmaps
      · rw [hto]
        exact hlinked
      · intro hm
        rcases phase_outside hto with rfl | rfl <;> exact hm.elim
      · rintro sem rfl
        cases hto
    · exact ⟨hfds, hmaps, hlinked, h.unborn, h.owned, nofun, fun hm => hm.elim, nofun⟩
  | leave e hfrom =>
    rw [hfrom] at hfds
    exact ⟨hfds, Finset.empty_subset _, nofun, h.unborn, h.owned, nofun, fun hm => hm.elim, nofun⟩
  | create hfrom =>
    rw [hfrom] at hfds hmaps
    refine ⟨?_, hmaps, fun _ => rfl, fun m hm => Nat.lt_succ_of_lt (h.unborn m hm),
      fun _ => rfl, nofun, fun hm => hm.elim, nofun⟩
    show insert s.next s.fds = {s.next}
    rw [hfds]
    rfl
  | openExisting hfrom =>
    rw [hfrom] at hfds hmaps hlinked
    refine ⟨?_, hmaps, hlinked, fun m hm => Nat.lt_succ_of_lt (h.unborn m hm), h.owned,
      fun _ => h.others (.inl hfrom), fun hm => hm.elim, nofun⟩
    show insert s.next s.fds = {s.next}
    rw [hfds]
    rfl
  | map pc hfrom hphase hret =>
    have hown : ({s.next} : Finset Nat) ⊆ insert s.next s.maps :=
      Finset.singleton_subset_iff.mpr (Finset.mem_insert_self _ _)
    have hborn : ∀ m ∈ insert s.next s.maps, m < s.next + 1 := by
      intro m hm
      rcases Finset.mem_insert.mp hm with rfl | hm
      · exact Nat.lt_succ_self _
      · exact Nat.lt_succ_of_lt (h.unborn m hm)
    refine ⟨?_, ?_, ?_, hborn, h.owned, ?_, fun _ => rfl,
      fun sem hsem => absurd hsem (hret (.ok sem))⟩
    · rw [State.map, hphase]
      exact hfds
    · rw [State.map, hphase]
      rcases hfrom with hfrom | hfrom <;> rw [hfrom] <;> exact hown
    · rw [State.map, hphase]
      exact hlinked
    · rw [State.map, hphase]
      exact h.others
  | mapFails e hfrom =>
    refine ⟨?_, ?_, ?_, h.unborn, h.owned, nofun, fun hm => hm.elim, nofun⟩
    · rcases hfrom with hfrom | hfrom <;> rw [hfrom] at hfds <;> exact hfds
    · exact Finset.empty_subset _
    · rcases hfrom with hfrom | hfrom <;> rw [hfrom] at hlinked <;> exact hlinked
  | succeed hfrom hmapped =>
    refine ⟨?_, ?_, ?_, h.unborn, h.owned, nofun, fun hm => hm.elim, fun sem hsem => ?_⟩
    · show s.fds \ s.fd.toFinset = ∅
      rcases hfrom with hfrom | hfrom <;> rw [hfrom] at hfds <;> rw [hfds] <;>
        exact Finset.sdiff_self _
    · rcases hfrom with hfrom | hfrom <;> rw [hfrom] at hmaps <;> exact hmaps
    · rcases hfrom with hfrom | hfrom <;> rw [hfrom] at hlinked <;> exact hlinked
    · cases hsem
      exact ⟨rfl, h.mapped hmapped⟩
  | retry hfrom =>
    rw [hfrom] at hfds hmaps hlinked
    refine ⟨?_, hmaps, hlinked, h.unborn, h.owned, fun _ => h.others (.inr hfrom),
      fun hm => hm.elim, nofun⟩
    show s.fds \ s.fd.toFinset = ∅
    rw [hfds]
    exact Finset.sdiff_self _
  | unlink e hfrom linked hle =>
    rw [hfrom] at hfds hmaps
    exact ⟨hfds, hmaps, nofun, h.unborn, fun hlinked => h.owned (hle hlinked), nofun,
      fun hm => hm.elim, nofun⟩
  | munmap e hfrom maps kept hsub hleft =>
    rw [hfrom] at hfds
    exact ⟨hfds, Finset.empty_subset _, nofun, fun m hm => h.unborn m (hsub hm), h.owned,
      nofun, fun hm => hm.elim, nofun⟩
  | close e hfrom =>
    rw [hfrom] at hfds
    refine ⟨?_, Finset.empty_subset _, nofun, h.unborn, h.owned, nofun, fun hm => hm.elim, nofun⟩
    show s.fds \ s.fd.toFinset = ∅
    rw [hfds]
    exact Finset.sdiff_self _

/-- `sem` loses the mapping it holds. -/
theorem nonempty_iff_dropped {sem : Option Nat} {maps : Finset Nat} (h : sem.toFinset ⊆ maps) :
    maps.Nonempty ↔ (maps \ sem.toFinset).Nonempty ∨ sem.isNone = false := by
  cases sem with
  | none => simp
  | some m =>
    have hm : m ∈ maps := h (by simp)
    have hne : maps.Nonempty := ⟨m, hm⟩
    simp [hne]

theorem leaks_iff (ph : Phase) (h : s.pc.phase = ph) :
    s.Leaks ↔ (s.maps \ ph.due s.sem).Nonempty ∨
      s.linked = true ∧ ph.dueLinked s.created = false := by
  rw [State.Leaks, h]

/-- What is held that should not be comes from a step that does not keep the
account, and stays. -/
theorem leaks_moves (h : Inv s) (hmove : Moves s k s') : s'.Leaks ↔ s.Leaks ∨ k = false := by
  have hmaps := h.maps
  have hunlinked : s.created = false → s.linked = false := fun hcreated => by
    cases hlinked : s.linked with
    | false => rfl
    | true => rw [h.owned hlinked] at hcreated; cases hcreated
  cases hmove with
  | goto pc hphase =>
    rw [leaks_iff s.pc.phase hphase]
    simp [State.Leaks]
  | fail e hphase =>
    rw [leaks_iff .unlinking rfl]
    rcases hphase with hphase | hphase <;> simp [leaks_iff _ hphase, Phase.due, Phase.dueLinked]
  | closed pc hfrom hto =>
    rw [leaks_iff _ hfrom]
    rcases hto with hto | ⟨e, rfl⟩
    · rw [leaks_iff .outside hto]
      simp [Phase.due, Phase.dueLinked]
    · rw [leaks_iff .unlinking rfl]
      simp [Phase.due, Phase.dueLinked]
  | leave e hfrom =>
    have hlinked := hunlinked (h.others (.inl hfrom))
    rw [hfrom] at hmaps
    rw [leaks_iff _ hfrom, leaks_iff .failed rfl]
    simp only [Phase.due, Finset.sdiff_empty, hlinked, Bool.false_eq_true, false_and, or_false]
    exact nonempty_iff_dropped hmaps
  | create hfrom =>
    have hlinked := hunlinked (h.others (.inl hfrom))
    rw [leaks_iff _ hfrom, leaks_iff .creating rfl]
    simp [Phase.due, Phase.dueLinked, State.openFile, hlinked]
  | openExisting hfrom =>
    rw [leaks_iff _ hfrom, leaks_iff .existing rfl]
    simp [Phase.due, Phase.dueLinked, State.openFile]
  | map pc hfrom hphase =>
    have hfresh : s.next ∉ s.maps := fun hm => Nat.lt_irrefl _ (h.unborn _ hm)
    have hmapped : (insert s.next s.maps \ {s.next} : Finset Nat) = s.maps := by
      rw [Finset.insert_sdiff_of_mem _ (Finset.mem_singleton_self _),
        Finset.sdiff_singleton_eq_erase, Finset.erase_eq_of_notMem hfresh]
    rcases hfrom with hfrom | hfrom <;> rw [hfrom] at hphase hmaps <;>
      rw [leaks_iff _ hfrom, leaks_iff (s := s.map pc) _ hphase, or_right_comm] <;>
      exact or_congr (by
        show (insert s.next s.maps \ {s.next} : Finset Nat).Nonempty ↔ _
        rw [hmapped]
        exact nonempty_iff_dropped hmaps) Iff.rfl
  | mapFails e hfrom =>
    rcases hfrom with hfrom | hfrom <;> rw [hfrom] at hmaps <;>
      rw [leaks_iff _ hfrom, leaks_iff .unlinking rfl, or_right_comm] <;>
      exact or_congr (by
        show (s.maps \ ∅).Nonempty ↔ _
        rw [Finset.sdiff_empty]
        exact nonempty_iff_dropped hmaps) Iff.rfl
  | succeed hfrom hmapped =>
    rw [leaks_iff .succeeded rfl]
    rcases hfrom with hfrom | hfrom <;>
      simp [leaks_iff _ hfrom, Phase.due, Phase.dueLinked, State.closeFd]
  | retry hfrom =>
    rw [leaks_iff _ hfrom, leaks_iff .outside rfl]
    simp [Phase.due, Phase.dueLinked, State.closeFd]
  | unlink e hfrom linked hle =>
    rw [leaks_iff _ hfrom, leaks_iff .unmapping rfl]
    simp only [Phase.due, Phase.dueLinked, and_true]
    cases hcreated : s.created with
    | true => simp
    | false =>
      have hlinked := hunlinked hcreated
      have hno : ¬ linked = true := fun hyes => by
        rw [hle hyes] at hlinked
        cases hlinked
      simp [hlinked, hno]
  | munmap e hfrom maps kept hsub hleft =>
    rw [leaks_iff _ hfrom, leaks_iff .closing rfl]
    simp only [Phase.due, Phase.dueLinked, and_true, Finset.sdiff_empty]
    rw [hleft, or_right_comm]
  | close e hfrom =>
    rw [leaks_iff _ hfrom, leaks_iff .failed rfl]
    simp [Phase.due, Phase.dueLinked, State.closeFd]

theorem inv_init : Inv (system c).init where
  fds := rfl
  maps := Finset.empty_subset _
  linked := nofun
  unborn := nofun
  owned := nofun
  others _ := rfl
  mapped hm := hm.elim
  result := nofun

/-- A run leaks exactly if some step does not keep the account. -/
theorem leaks_exec (hrun : (system c).exec (system c).init as = some s) :
    Inv s ∧ (s.Leaks ↔ (system c).execIf (keeps c) (system c).init as ≠ some s) := by
  have hnone : ¬ (system c).init.Leaks := by
    simp [State.Leaks, system, Phase.due, Phase.dueLinked, Pc.phase]
  obtain ⟨hinv, hleaks⟩ := exec_iff_execIf (L := system c) (P := Inv) (Q := State.Leaks)
    (fun s a s' hs hstep =>
      ⟨inv_moves hs (step_moves hs hstep), leaks_moves hs (step_moves hs hstep)⟩) inv_init hrun
  exact ⟨hinv, by simpa [hnone] using hleaks⟩

/-- A call that returns without a leak has what it returns, and no more. -/
theorem clean_iff (h : Inv s) (hret : s.pc = .returned result) : Clean s result ↔ ¬ s.Leaks := by
  have hfds := h.fds
  have hmaps := h.maps
  rw [hret] at hfds hmaps
  cases result with
  | error e =>
    rw [leaks_iff .failed (by rw [hret]; rfl)]
    have hempty : s.fds = ∅ := hfds
    simp [Clean, hempty, Phase.due, Phase.dueLinked, Finset.not_nonempty_iff_eq_empty]
  | ok sem =>
    obtain ⟨rfl, hsome⟩ := h.result sem hret
    obtain ⟨m, hm⟩ := Option.isSome_iff_exists.mp hsome
    have hempty : s.fds = ∅ := hfds
    have hown : {m} ⊆ s.maps := by
      rw [hm] at hmaps
      exact hmaps
    rw [leaks_iff .succeeded (by rw [hret]; rfl)]
    have hlinked : ¬ (s.linked = true ∧ s.created = false) := fun ⟨hlinked, hcreated⟩ => by
      rw [h.owned hlinked] at hcreated
      cases hcreated
    simp only [Clean, hempty, hm, Phase.due, Phase.dueLinked, hlinked, or_false, true_and,
      Option.toFinset_some, Finset.not_nonempty_iff_eq_empty, Finset.sdiff_eq_empty_iff_subset]
    constructor
    · rintro ⟨n, hn, heq⟩
      cases hn
      exact heq.subset
    · intro hsub
      exact ⟨m, rfl, hsub.antisymm hown⟩

end DdsAuto.MyPxsemMmap.Debris
