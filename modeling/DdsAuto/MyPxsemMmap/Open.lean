import DdsAuto.MyPxsemMmap.Semaphore
import Mathlib.Data.Fintype.Basic
import Mathlib.Logic.Function.Basic

/-!
# `mysem_open` and `mysem_unlink` of `my_pxsem_mmap`

Any number of processes open and unlink one pathname; each system call is a
step. The creator of a file keeps its user-execute bit set until it has
initialised the semaphore in it, and an opener waits for the bit to go.

The opener maps the file `open` gave it but asks `stat` about the pathname. If
the file it mapped is unlinked before it is initialised and another one takes
its name, the bit of the second file lets it return the first.
-/

namespace DdsAuto.MyPxsemMmap

open Lts Function

/-- `<sys/stat.h>`: execute by the owner. -/
def S_IXUSR : BitVec 32 := 0o100#32

def MAX_TRIES : Nat := 10

/-- `sysconf(_SC_SEM_VALUE_MAX)`. -/
def SEM_VALUE_MAX : Nat := 2147483647

/-- `errno`; `other` is whatever else a system call fails with. -/
inductive Errno
  | EEXIST
  | ENOENT
  | EINVAL
  | ETIMEDOUT
  | other (n : Nat)
  deriving DecidableEq, Repr

/-- The arguments of `mysem_open`: the two flags it looks at, and what follows
them with `O_CREAT`. -/
structure Call where
  creat : Bool
  excl : Bool
  mode : BitVec 32
  value : Nat
  deriving DecidableEq, Repr

/-- A file object. `initialised` records that its creator's `fchmod` succeeded. -/
structure File where
  st_mode : BitVec 32
  sem : Mysem
  initialised : Bool
  deriving DecidableEq, Repr

/-- The file objects made so far, and the one the pathname leads to. -/
structure Fs where
  path : Option Nat
  next : Nat
  file : Nat → File

/-- `open` with `O_CREAT | O_EXCL` where there is no file. -/
def Fs.create (fs : Fs) (mode : BitVec 32) : Fs where
  path := some fs.next
  next := fs.next + 1
  file := update fs.file fs.next ⟨mode, ⟨0, 0⟩, false⟩

/-- Bytes stored in the file, or in a mapping of it. -/
def Fs.store (fs : Fs) (f : Nat) (sem : Mysem) : Fs :=
  { fs with file := update fs.file f { fs.file f with sem := sem } }

def Fs.fchmod (fs : Fs) (f : Nat) (mode : BitVec 32) : Fs :=
  { fs with file := update fs.file f { fs.file f with st_mode := mode, initialised := true } }

def Fs.unlink (fs : Fs) : Fs := { fs with path := none }

/-- Where a process is: before the system call named, with the file it has open
or mapped. -/
inductive Pc
  | idle
  | again
  | write (f : Nat)
  | mmap (f : Nat)
  | initialise (f : Nat)
  | fchmod (f : Nat)
  | closeCreated (f : Nat)
  | existing
  | mmapExisting (f : Nat)
  | stat (f : Nat) (i : Nat)
  | closeExisting (f : Nat)
  | closeAgain
  | err (created : Bool) (errno : Errno)
  | errClose (errno : Errno)
  | returned (sem : Except Errno Nat)

/-- The next system call of `mysem_open`, and where it leads. `fail` makes the
call fail for a reason of its own; otherwise the files decide. -/
def sysCall (umask : BitVec 32) (c : Call) (fs : Fs) (fail : Option Nat) : Pc → Option (Fs × Pc)
  | .idle | .returned _ => none
  | .again =>
    if c.creat then
      match fail, fs.path with
      | some e, _ => some (fs, .returned (.error (.other e)))
      | none, some _ =>
        if c.excl then some (fs, .returned (.error .EEXIST)) else some (fs, .existing)
      | none, none =>
        let mode := c.mode &&& ~~~S_IXUSR
        some (fs.create ((mode ||| S_IXUSR) &&& ~~~umask), .write fs.next)
    else some (fs, .existing)
  | .write f =>
    match fail with
    | some e => some (fs, .err true (.other e))
    | none => some (fs.store f ⟨0, 0⟩, .mmap f)
  | .mmap f =>
    match fail with
    | some e => some (fs, .err true (.other e))
    | none => some (fs, .initialise f)
  | .initialise f =>
    -- The mutex, the condition variable and the value.
    match fail with
    | some i => some (fs, .err true (.other i))
    | none =>
      let fs := fs.store f { (fs.file f).sem with sem_count := c.value }
      if c.value > SEM_VALUE_MAX then some (fs, .err true .EINVAL) else some (fs, .fchmod f)
  | .fchmod f =>
    match fail with
    | some e => some (fs, .err true (.other e))
    | none => some (fs.fchmod f (c.mode &&& ~~~S_IXUSR), .closeCreated f)
  | .closeCreated f =>
    some (fs.store f { (fs.file f).sem with sem_magic := SEM_MAGIC }, .returned (.ok f))
  | .existing =>
    match fail, fs.path with
    | some e, _ => some (fs, .err false (.other e))
    | none, none =>
      if c.creat then some (fs, .again) else some (fs, .err false .ENOENT)
    | none, some f => some (fs, .mmapExisting f)
  | .mmapExisting f =>
    match fail with
    | some e => some (fs, .err false (.other e))
    | none => some (fs, .stat f 0)
  | .stat f i =>
    if i < MAX_TRIES then
      match fail, fs.path with
      | some e, _ => some (fs, .err false (.other e))
      | none, none =>
        if c.creat then some (fs, .closeAgain) else some (fs, .err false .ENOENT)
      | none, some g =>
        if (fs.file g).st_mode &&& S_IXUSR = 0 then some (fs, .closeExisting f)
        else some (fs, .stat f (i + 1))
    else some (fs, .err false .ETIMEDOUT)
  | .closeExisting f =>
    some (fs.store f { (fs.file f).sem with sem_magic := SEM_MAGIC }, .returned (.ok f))
  | .closeAgain => some (fs, .again)
  | .err created e =>
    match created, fail with
    | true, none => some (fs.unlink, .errClose e)
    | _, _ => some (fs, .errClose e)
  | .errClose e => some (fs, .returned (.error e))

-- ---------------------------------------------------------------------------
-- The processes
-- ---------------------------------------------------------------------------

structure Proc where
  call : Call
  pc : Pc

structure OpenState (P : Type) where
  fs : Fs
  proc : P → Proc

inductive OpenLabel (P : Type)
  | call (p : P) (c : Call)
  | sysCall (p : P) (fail : Option Nat)
  | unlink (p : P) (fail : Option Nat)

/-- `p` may make a call. -/
def Pc.Free : Pc → Prop
  | .idle | .returned _ => True
  | _ => False

instance (pc : Pc) : Decidable pc.Free := by cases pc <;> unfold Pc.Free <;> infer_instance

variable {P : Type} [DecidableEq P]

def openStep (umask : P → BitVec 32) (s : OpenState P) : OpenLabel P → Option (OpenState P)
  | .call p c =>
    if (s.proc p).pc.Free then some { s with proc := update s.proc p ⟨c, .again⟩ } else none
  | .sysCall p fail =>
    (sysCall (umask p) (s.proc p).call s.fs fail (s.proc p).pc).map fun (fs, pc) =>
      ⟨fs, update s.proc p { s.proc p with pc := pc }⟩
  | .unlink p fail =>
    -- `mysem_unlink`; it leaves the file alone when `unlink` fails.
    if (s.proc p).pc.Free then
      match fail with
      | some _ => some s
      | none => some { s with fs := s.fs.unlink }
    else none

/-- Processes with their umasks and a pathname that leads nowhere. -/
def openSystem (umask : P → BitVec 32) : Lts (OpenState P) (OpenLabel P) where
  init := ⟨⟨none, 0, fun _ => ⟨0, ⟨0, 0⟩, false⟩⟩, fun _ => ⟨⟨false, false, 0, 0⟩, .idle⟩⟩
  step := openStep umask

/-- Every semaphore handed out lies in a file that has been initialised. -/
def OpenState.HandsOutInitialised (s : OpenState P) : Prop :=
  ∀ p f, (s.proc p).pc = .returned (.ok f) → (s.fs.file f).initialised = true

/-- The file an opener has open and will ask `stat` about. -/
def Pc.opening : Pc → Option Nat
  | .mmapExisting f => some f
  | .stat f i => if i < MAX_TRIES then some f else none
  | _ => none

/-- Some opener waits for the file. -/
def OpenState.Watched (s : OpenState P) (f : Nat) : Prop := ∃ p, (s.proc p).pc.opening = some f

/-- The step unlinks the pathname. -/
def OpenState.unlinks (s : OpenState P) : OpenLabel P → Bool
  | .sysCall p none =>
    match (s.proc p).pc with
    | .err true _ => true
    | _ => false
  | .unlink _ none => true
  | _ => false

/-- The step creates a file under a umask that takes the user-execute bit away. -/
def OpenState.createsUnmarked (umask : P → BitVec 32) (s : OpenState P) : OpenLabel P → Bool
  | .sysCall p none =>
    match (s.proc p).pc with
    | .again => (s.proc p).call.creat && s.fs.path.isNone && umask p &&& S_IXUSR != 0
    | _ => false
  | _ => false

/-- No file is created without its user-execute bit, and none is unlinked
uninitialised while an opener waits for it. -/
def KeepsWatched (umask : P → BitVec 32) (s : OpenState P) (a : OpenLabel P) : Prop :=
  s.createsUnmarked umask a = false ∧
    (s.unlinks a = true → ∀ f ∈ s.fs.path, s.Watched f → (s.fs.file f).initialised = true)

-- ---------------------------------------------------------------------------
-- What a system call does to the files
-- ---------------------------------------------------------------------------

/-- The mode a creator opens its file with. -/
theorem and_ixusr_created (mode umask : BitVec 32) (h : umask &&& S_IXUSR = 0) :
    ((mode ||| S_IXUSR) &&& ~~~umask) &&& S_IXUSR = S_IXUSR := by
  ext i hi
  have hclear : (umask[i] && S_IXUSR[i]) = false := by simpa using congrArg (·[i]) h
  simp only [BitVec.getElem_and, BitVec.getElem_or, BitVec.getElem_not]
  cases hu : umask[i] <;> cases hx : S_IXUSR[i] <;> simp_all

/-- How one step may change the files; `watched` are the files that openers
wait for. -/
inductive Evolves (watched : Nat → Prop) (fs : Fs) : Fs → Prop
  | same : Evolves watched fs fs
  | create (mode : BitVec 32) (hfree : fs.path = none) (hmarked : mode &&& S_IXUSR ≠ 0) :
      Evolves watched fs (fs.create mode)
  | store (f : Nat) (sem : Mysem) : Evolves watched fs (fs.store f sem)
  | fchmod (f : Nat) (mode : BitVec 32) : Evolves watched fs (fs.fchmod f mode)
  | unlink (hdone : ∀ f ∈ fs.path, watched f → (fs.file f).initialised = true) :
      Evolves watched fs fs.unlink

variable {watched : Nat → Prop} {fs fs' : Fs} {pc pc' : Pc} {f : Nat}

theorem Evolves.next_le (h : Evolves watched fs fs') : fs.next ≤ fs'.next := by
  cases h with
  | create => exact Nat.le_succ _
  | same | store | fchmod | unlink => exact Nat.le_refl _

/-- Bytes stored in a file change neither its mode nor whether it is initialised. -/
@[simp] theorem Fs.store_mode (fs : Fs) (g : Nat) (sem : Mysem) (f : Nat) :
    ((fs.store g sem).file f).st_mode = (fs.file f).st_mode := by
  by_cases h : f = g
  · simp only [Fs.store, h, update_self]
  · simp only [Fs.store, update_of_ne h]

@[simp] theorem Fs.store_initialised (fs : Fs) (g : Nat) (sem : Mysem) (f : Nat) :
    ((fs.store g sem).file f).initialised = (fs.file f).initialised := by
  by_cases h : f = g
  · simp only [Fs.store, h, update_self]
  · simp only [Fs.store, update_of_ne h]

theorem Evolves.initialised (h : Evolves watched fs fs') (hf : f < fs.next)
    (hi : (fs.file f).initialised = true) : (fs'.file f).initialised = true := by
  cases h with
  | same | unlink => exact hi
  | create mode =>
    show (update fs.file fs.next _ f).initialised = true
    rwa [update_of_ne (Nat.ne_of_lt hf)]
  | store g sem => rwa [Fs.store_initialised]
  | fchmod g mode =>
    show (update fs.file g _ f).initialised = true
    by_cases hg : f = g
    · subst hg
      rw [update_self]
    · rwa [update_of_ne hg]

/-- A watched file keeps its name until it is initialised. -/
theorem Evolves.path (h : Evolves watched fs fs') (hw : watched f) (hp : fs.path = some f) :
    (fs'.file f).initialised = true ∨ fs'.path = some f := by
  cases h with
  | same | store | fchmod => exact .inr hp
  | create mode hfree =>
    rw [hp] at hfree
    cases hfree
  | unlink hdone => exact .inl (hdone f hp hw)

-- ---------------------------------------------------------------------------
-- The invariant
-- ---------------------------------------------------------------------------

/-- A file without its user-execute bit is initialised. -/
structure FsOk (fs : Fs) : Prop where
  unmarked : ∀ f < fs.next, (fs.file f).st_mode &&& S_IXUSR = 0 → (fs.file f).initialised = true
  bound : ∀ f, fs.path = some f → f < fs.next

theorem Evolves.fsOk (h : Evolves watched fs fs') (hfs : FsOk fs) : FsOk fs' := by
  cases h with
  | same => exact hfs
  | create mode hfree hmarked =>
    constructor
    · intro f hf hx
      by_cases hnew : f = fs.next
      · subst hnew
        simp only [Fs.create, update_self] at hx
        exact absurd hx hmarked
      · simp only [Fs.create, update_of_ne hnew] at hx ⊢
        exact hfs.unmarked f (Nat.lt_of_le_of_ne (Nat.le_of_lt_succ hf) hnew) hx
    · intro f hp
      cases hp
      exact Nat.lt_succ_self _
  | store g sem =>
    refine ⟨fun f hf hx => ?_, hfs.bound⟩
    rw [Fs.store_mode] at hx
    rw [Fs.store_initialised]
    exact hfs.unmarked f hf hx
  | fchmod g mode =>
    refine ⟨fun f hf hx => ?_, hfs.bound⟩
    by_cases hg : f = g
    · subst hg
      simp only [Fs.fchmod, update_self]
    · simp only [Fs.fchmod, update_of_ne hg] at hx ⊢
      exact hfs.unmarked f hf hx
  | unlink hdone => exact ⟨hfs.unmarked, fun f hp => nomatch hp⟩

/-- The file a process has open or mapped. -/
def Pc.file : Pc → Option Nat
  | .write f | .mmap f | .initialise f | .fchmod f | .closeCreated f | .mmapExisting f
  | .stat f _ | .closeExisting f | .returned (.ok f) => some f
  | _ => none

/-- The file a process is about to return or has returned. -/
def Pc.ready : Pc → Option Nat
  | .closeCreated f | .closeExisting f | .returned (.ok f) => some f
  | _ => none

/-- What the files are to a process. An opener's file is the one `stat` will
look at, or it is initialised. -/
structure PcOk (fs : Fs) (pc : Pc) : Prop where
  bound : ∀ f, pc.file = some f → f < fs.next
  opening : ∀ f, pc.opening = some f → (fs.file f).initialised = true ∨ fs.path = some f
  ready : ∀ f, pc.ready = some f → (fs.file f).initialised = true

theorem Pc.file_of_opening (h : pc.opening = some f) : pc.file = some f := by
  cases pc with
  | mmapExisting g => exact h
  | stat g i =>
    simp only [Pc.opening, Option.ite_none_right_eq_some] at h
    exact h.2
  | _ => cases h

theorem Pc.file_of_ready (h : pc.ready = some f) : pc.file = some f := by
  cases pc with
  | returned r =>
    cases r with
    | ok => exact h
    | error => cases h
  | closeCreated | closeExisting => exact h
  | _ => cases h

/-- Whoever moves, the other processes stay right about their files. -/
theorem Evolves.pcOk (h : Evolves watched fs fs') (hpc : PcOk fs pc)
    (hw : ∀ f, pc.opening = some f → watched f) : PcOk fs' pc where
  bound f hf := Nat.lt_of_lt_of_le (hpc.bound f hf) h.next_le
  opening f hf := by
    rcases hpc.opening f hf with hi | hp
    · exact .inl (h.initialised (hpc.bound f (Pc.file_of_opening hf)) hi)
    · exact h.path (hw f hf) hp
  ready f hf := h.initialised (hpc.bound f (Pc.file_of_ready hf)) (hpc.ready f hf)

theorem PcOk.nofile (h : pc.file = none) : PcOk fs pc where
  bound f hf := by rw [h] at hf; cases hf
  opening f hf := by cases (Pc.file_of_opening hf).symm.trans h
  ready f hf := by cases (Pc.file_of_ready hf).symm.trans h

theorem PcOk.creating (hf : f < fs.next) (hfile : pc.file = some f) (hopening : pc.opening = none)
    (hready : pc.ready = none) : PcOk fs pc where
  bound g hg := by
    rw [hfile] at hg
    cases hg
    exact hf
  opening g hg := by rw [hopening] at hg; cases hg
  ready g hg := by rw [hready] at hg; cases hg

theorem PcOk.done (hf : f < fs.next) (hi : (fs.file f).initialised = true)
    (hfile : pc.file = some f) (hopening : pc.opening = none) : PcOk fs pc where
  bound g hg := by
    rw [hfile] at hg
    cases hg
    exact hf
  opening g hg := by rw [hopening] at hg; cases hg
  ready g hg := by
    cases (Pc.file_of_ready hg).symm.trans hfile
    exact hi

theorem PcOk.waiting (hf : f < fs.next) (hi : (fs.file f).initialised = true ∨ fs.path = some f)
    (hfile : pc.file = some f) (hready : pc.ready = none) : PcOk fs pc where
  bound g hg := by
    rw [hfile] at hg
    cases hg
    exact hf
  opening g hg := by
    cases (Pc.file_of_opening hg).symm.trans hfile
    exact hi
  ready g hg := by rw [hready] at hg; cases hg

/-- The pathname is looked up to create the file, or to open the one there. -/
theorem again_ok (humask : c.creat = true → fail = none → fs.path = none → umask &&& S_IXUSR = 0)
    (hstep : sysCall umask c fs fail .again = some (fs', pc')) :
    Evolves watched fs fs' ∧ PcOk fs' pc' := by
  simp only [sysCall] at hstep
  split at hstep
  · rename_i hcreat
    split at hstep
    · cases hstep
      exact ⟨.same, .nofile rfl⟩
    · split at hstep <;> cases hstep <;> exact ⟨.same, .nofile rfl⟩
    · rename_i hfree
      cases hstep
      refine ⟨.create _ hfree ?_, .creating (Nat.lt_succ_self _) rfl rfl rfl⟩
      rw [and_ixusr_created _ _ (humask hcreat rfl hfree)]
      decide
  · cases hstep
    exact ⟨.same, .nofile rfl⟩

/-- The file `stat` sees is the one that is mapped, or that one is initialised. -/
theorem stat_ok (hfs : FsOk fs) (hpc : PcOk fs (.stat f i))
    (hstep : sysCall umask c fs fail (.stat f i) = some (fs', pc')) :
    Evolves watched fs fs' ∧ PcOk fs' pc' := by
  have hf := hpc.bound f rfl
  simp only [sysCall] at hstep
  split at hstep
  · rename_i hi
    have hopen := hpc.opening f (if_pos hi)
    split at hstep
    · cases hstep
      exact ⟨.same, .nofile rfl⟩
    · split at hstep <;> cases hstep <;> exact ⟨.same, .nofile rfl⟩
    · rename_i g hg
      split at hstep <;> cases hstep
      · rename_i hx
        have hi : (fs.file f).initialised = true := by
          rcases hopen with hi | hp
          · exact hi
          · rw [hp] at hg
            cases hg
            exact hfs.unmarked f hf hx
        exact ⟨.same, .done hf hi rfl rfl⟩
      · exact ⟨.same, .waiting hf hopen rfl rfl⟩
  · cases hstep
    exact ⟨.same, .nofile rfl⟩

/-- The last statements of both branches: `sem_magic` is set and the file returned. -/
theorem returned_ok (hpc : PcOk fs pc) (hready : pc.ready = some f) (sem : Mysem) :
    Evolves watched fs (fs.store f sem) ∧ PcOk (fs.store f sem) (.returned (.ok f)) := by
  have hstore : Evolves watched fs (fs.store f sem) := .store f sem
  have hf := hpc.bound f (Pc.file_of_ready hready)
  exact ⟨hstore, .done hf (hstore.initialised hf (hpc.ready f hready)) rfl rfl⟩

theorem sysCall_ok (hfs : FsOk fs) (hpc : PcOk fs pc)
    (humask : pc = .again → c.creat = true → fail = none → fs.path = none →
      umask &&& S_IXUSR = 0)
    (hdone : (∃ e, pc = .err true e) → fail = none →
      ∀ f ∈ fs.path, watched f → (fs.file f).initialised = true)
    (hstep : sysCall umask c fs fail pc = some (fs', pc')) :
    Evolves watched fs fs' ∧ PcOk fs' pc' := by
  have hfail {e : Pc} (he : e.file = none) : Evolves watched fs fs ∧ PcOk fs e :=
    ⟨.same, .nofile he⟩
  cases pc with
  | idle => cases hstep
  | returned r => cases hstep
  | again => exact again_ok (fun hcreat hnone hfree => humask rfl hcreat hnone hfree) hstep
  | write f =>
    have hf := hpc.bound f rfl
    cases fail <;> cases hstep
    · exact ⟨.store f _, .creating hf rfl rfl rfl⟩
    · exact hfail rfl
  | mmap f =>
    have hf := hpc.bound f rfl
    cases fail <;> cases hstep
    · exact ⟨.same, .creating hf rfl rfl rfl⟩
    · exact hfail rfl
  | initialise f =>
    have hf := hpc.bound f rfl
    cases fail with
    | some i =>
      cases hstep
      exact hfail rfl
    | none =>
      simp only [sysCall] at hstep
      split at hstep <;> cases hstep
      · exact ⟨.store f _, .nofile rfl⟩
      · exact ⟨.store f _, .creating hf rfl rfl rfl⟩
  | fchmod f =>
    have hf := hpc.bound f rfl
    cases fail <;> cases hstep
    · refine ⟨.fchmod f _, .done hf ?_ rfl rfl⟩
      simp only [Fs.fchmod, update_self]
    · exact hfail rfl
  | closeCreated f =>
    cases hstep
    exact returned_ok hpc rfl _
  | existing =>
    simp only [sysCall] at hstep
    split at hstep
    · cases hstep
      exact hfail rfl
    · split at hstep <;> cases hstep <;> exact hfail rfl
    · rename_i f hp
      cases hstep
      exact ⟨.same, .waiting (hfs.bound f hp) (.inr hp) rfl rfl⟩
  | mmapExisting f =>
    cases fail <;> cases hstep
    · exact ⟨.same, .waiting (hpc.bound f rfl) (hpc.opening f rfl) rfl rfl⟩
    · exact hfail rfl
  | stat f i => exact stat_ok hfs hpc hstep
  | closeExisting f =>
    cases hstep
    exact returned_ok hpc rfl _
  | closeAgain =>
    cases hstep
    exact hfail rfl
  | err created e =>
    cases created with
    | false =>
      cases hstep
      exact hfail rfl
    | true =>
      cases fail <;> cases hstep
      · exact ⟨.unlink (hdone ⟨e, rfl⟩ rfl), .nofile rfl⟩
      · exact hfail rfl
  | errClose e =>
    cases hstep
    exact hfail rfl

-- ---------------------------------------------------------------------------
-- Runs
-- ---------------------------------------------------------------------------

structure OpenInv (s : OpenState P) : Prop where
  fs : FsOk s.fs
  proc : ∀ p, PcOk s.fs (s.proc p).pc

variable {umask : P → BitVec 32} {s s' : OpenState P} {a : OpenLabel P}

theorem OpenInv.move (h : OpenInv s) (p : P) (q : Proc) (hfs : Evolves s.Watched s.fs fs')
    (hq : PcOk fs' q.pc) : OpenInv ⟨fs', update s.proc p q⟩ where
  fs := hfs.fsOk h.fs
  proc := (forall_update_iff s.proc fun _ x => PcOk fs' x.pc).mpr
    ⟨hq, fun r _ => hfs.pcOk (h.proc r) fun _ hf => ⟨r, hf⟩⟩

theorem OpenInv.step (h : OpenInv s) (ha : KeepsWatched umask s a)
    (hstep : openStep umask s a = some s') : OpenInv s' := by
  obtain ⟨hmarked, hwatched⟩ := ha
  cases a with
  | call p c =>
    simp only [openStep, Option.ite_none_right_eq_some, Option.some.injEq] at hstep
    obtain ⟨-, rfl⟩ := hstep
    exact h.move p _ .same (.nofile rfl)
  | unlink p fail =>
    simp only [openStep, Option.ite_none_right_eq_some] at hstep
    obtain ⟨-, hstep⟩ := hstep
    cases fail with
    | some e =>
      cases hstep
      exact h
    | none =>
      cases hstep
      have hfs : Evolves s.Watched s.fs s.fs.unlink := .unlink (hwatched rfl)
      exact ⟨hfs.fsOk h.fs, fun q => hfs.pcOk (h.proc q) fun _ hf => ⟨q, hf⟩⟩
  | sysCall p fail =>
    simp only [openStep, Option.map_eq_some_iff] at hstep
    obtain ⟨⟨fs', pc'⟩, hcall, rfl⟩ := hstep
    have hok : Evolves s.Watched s.fs fs' ∧ PcOk fs' pc' := by
      refine sysCall_ok h.fs (h.proc p) ?_ ?_ hcall
      · rintro hpc hcreat rfl hfree
        simpa [OpenState.createsUnmarked, hpc, hcreat, hfree] using hmarked
      · rintro ⟨e, he⟩ rfl
        refine hwatched ?_
        simp only [OpenState.unlinks, he]
    exact h.move p _ hok.1 hok.2

theorem open_inv (h : (openSystem umask).Reachable (KeepsWatched umask) s) : OpenInv s := by
  refine h.invariant ?_ fun s a s' hs ha hstep => hs.step ha hstep
  refine ⟨⟨fun f hf => absurd hf (Nat.not_lt_zero f), fun f hf => nomatch hf⟩, fun p => .nofile rfl⟩

/-- In the runs that create no unmarked file and unlink no file an opener waits
for, every semaphore handed out is initialised. -/
theorem open_hands_out_initialised (umask : P → BitVec 32) (s : OpenState P)
    (h : (openSystem umask).Reachable (KeepsWatched umask) s) : s.HandsOutInitialised := by
  intro p f hp
  have hready := ((open_inv h).proc p).ready
  rw [hp] at hready
  exact hready f rfl

instance [Fintype P] (s : OpenState P) (f : Nat) : Decidable (s.Watched f) := by
  unfold OpenState.Watched; infer_instance

instance [Fintype P] (s : OpenState P) (a : OpenLabel P) : Decidable (KeepsWatched umask s a) := by
  unfold KeepsWatched; infer_instance

/-- `p` was handed a file that is (or is not) initialised. -/
def OpenState.handed (s : OpenState P) (p : P) (initialised : Bool) : Bool :=
  match (s.proc p).pc with
  | .returned (.ok f) => (s.fs.file f).initialised == initialised
  | _ => false

/-- One process creates the semaphore and another opens it. -/
theorem open_hands_out_initialised_two :
    ∃ s : OpenState (Fin 2),
      (openSystem fun _ => 0o022#32).Reachable (KeepsWatched fun _ => 0o022#32) s ∧
        s.handed 1 true = true ∧ s.HandsOutInitialised := by
  obtain ⟨s, hs, hhanded⟩ := reachable_of_execIf (openSystem fun _ : Fin 2 => 0o022#32)
    (fun s a => decide (KeepsWatched (fun _ => 0o022#32) s a)) (fun s a h => of_decide_eq_true h)
    ([.call 0 ⟨true, true, 0o644, 1⟩] ++ List.replicate 6 (.sysCall 0 none) ++
      [.call 1 ⟨false, false, 0, 0⟩] ++ List.replicate 5 (.sysCall 1 none))
    (fun s => s.handed 1 true) (by decide +kernel)
  exact ⟨s, hs, hhanded, open_hands_out_initialised _ s hs⟩

/-- The opener maps the first file; it is unlinked, and a second one is created
and initialised under its name. -/
theorem open_hands_out_uninitialised :
    ¬ ∀ s : OpenState (Fin 3), (openSystem fun _ => 0o022#32).Reachable anyStep s →
      s.HandsOutInitialised := by
  intro h
  obtain ⟨s, hs, hhanded⟩ := reachable_of_exec (openSystem fun _ : Fin 3 => 0o022#32)
    ([.call 0 ⟨true, true, 0o644, 1⟩, .sysCall 0 none] ++
      [.call 1 ⟨false, false, 0, 0⟩] ++ List.replicate 3 (.sysCall 1 none) ++
      [.unlink 2 none, .call 2 ⟨true, true, 0o644, 1⟩] ++ List.replicate 6 (.sysCall 2 none) ++
      List.replicate 2 (.sysCall 1 none))
    (fun s => s.handed 1 false) (by decide +kernel)
  have hall := h s hs 1
  unfold OpenState.handed at hhanded
  split at hhanded
  · rename_i f hf
    rw [hall f hf] at hhanded
    cases hhanded
  · cases hhanded

end DdsAuto.MyPxsemMmap
