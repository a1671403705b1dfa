import DdsAuto.Lib.Lts
import Mathlib.Data.Fintype.Basic
import Mathlib.Data.List.Basic

/-!
# `my_pxsem_fifo`

A semaphore that is a FIFO: its value is the number of bytes in it. Any number of
callers open, wait, post, close and unlink under one pathname, and each system call
is a step. A handle holds both ends of the FIFO, so that a `read` always has a
writer and a `write` a reader; but the two ends are opened by name one after the
other, and a handle whose name is moved in between has them in two FIFOs.

The kernel drops the bytes when the last descriptor goes: the counts of a FIFO are
of what happened since then.
-/

namespace DdsAuto.MyPxsemFifo

open Lts Function

def SEM_MAGIC : Nat := 0x89674523

inductive End
  | rd
  | wr
  deriving DecidableEq, Repr

/-- `count` bytes are in the FIFO; `put` have been written and `taken` read. -/
structure Fifo where
  count : Nat
  put : Nat
  taken : Nat
  deriving DecidableEq, Repr

/-- A descriptor is the FIFO it leads to; `none` is −1. -/
structure Mysem where
  sem_fd0 : Option Nat
  sem_fd1 : Option Nat
  sem_magic : Nat
  deriving DecidableEq, Repr

/-- The arguments of `mysem_open`; the mode decides nothing here. -/
structure Call where
  creat : Bool
  excl : Bool
  value : Nat
  deriving DecidableEq, Repr

inductive Op
  | wait
  | post
  deriving DecidableEq, Repr

/-- Where a caller is: before the system call named, or between calls with what the
last operation returned. -/
inductive Pc
  | idle
  | mkfifo
  | malloc
  | openRd
  | openWr
  | getfl
  | setfl
  | write (i : Nat)
  | errUnlink
  | errClose0
  | errClose1
  | failed
  | ready (last : Option (Op × Int))
  | wait
  | post
  | close0
  | close1
  | killed
  deriving DecidableEq, Repr

/-- `creat` is what is left of `O_CREAT` in `oflag`; `created` is the FIFO this call
of `mysem_open` has made, and `left` says that it has given up removing it. -/
structure Caller where
  pc : Pc
  call : Call
  creat : Bool
  sem : Option Mysem
  created : Option Nat
  left : Bool
  deriving Repr

/-- The FIFOs made so far, the one the pathname leads to, and the descriptors each
caller has open. -/
structure State (P : Type) where
  fifo : Nat → Fifo
  path : Option Nat
  next : Nat
  caller : P → Caller
  fds : P → List (Nat × End)

variable {P : Type} [DecidableEq P] [Fintype P]

/-- Somebody has end `e` of `f` open. -/
def Open (fds : P → List (Nat × End)) (f : Nat) (e : End) : Prop := ∃ p, (f, e) ∈ fds p

instance (fds : P → List (Nat × End)) (f : Nat) (e : End) : Decidable (Open fds f e) := by
  unfold Open; infer_instance

def State.set (s : State P) (p : P) (c : Caller) : State P :=
  { s with caller := update s.caller p c }

def State.goto (s : State P) (p : P) (pc : Pc) : State P :=
  s.set p { s.caller p with pc := pc }

def State.setFds (s : State P) (p : P) (fds : List (Nat × End)) : State P :=
  { s with fds := update s.fds p fds }

/-- `close`, with −1 ignored. What is in a FIFO goes with its last descriptor. -/
def State.close (s : State P) (p : P) (fd : Option Nat) (e : End) : State P :=
  match fd with
  | none => s
  | some f =>
    let fds := update s.fds p ((s.fds p).erase (f, e))
    { s with
      fds := fds
      fifo := if Open fds f .rd ∨ Open fds f .wr then s.fifo else update s.fifo f ⟨0, 0, 0⟩ }

/-- One byte into `f`. -/
def State.put (s : State P) (f : Nat) : State P :=
  let old := s.fifo f
  { s with fifo := update s.fifo f ⟨old.count + 1, old.put + 1, old.taken⟩ }

/-- One byte out of `f`. -/
def State.take (s : State P) (f : Nat) : State P :=
  let old := s.fifo f
  { s with fifo := update s.fifo f ⟨old.count - 1, old.put, old.taken + 1⟩ }

/-- To `error:`, which unlinks the FIFO only where `oflag` has kept `O_CREAT`. -/
def State.error (s : State P) (p : P) : State P :=
  s.goto p (if (s.caller p).creat then .errUnlink else .errClose0)

/-- `SEM_FAILED` with nothing allocated; `left` is a FIFO that stays behind. -/
def State.giveUp (s : State P) (p : P) (left : Bool) : State P :=
  s.set p { s.caller p with pc := .failed, left := left }

/-- The process dies, and its descriptors with it. -/
def State.die (s : State P) (p : P) (sem : Mysem) : State P :=
  ((s.goto p .killed).close p sem.sem_fd0 .rd).close p sem.sem_fd1 .wr

/-- `write` of one byte, which does not block: `SIGPIPE` where the FIFO has no
reader, `EAGAIN` where it has no room. -/
def State.tryWrite (capacity : Nat) (s : State P) (p : P) (sem : Mysem) (f : Nat)
    (done full : State P) : State P :=
  if Open s.fds f .rd then if (s.fifo f).count < capacity then done else full
  else s.die p sem

/-- The next system call of a caller. `fail` makes a call fail for a reason of its
own; otherwise the FIFOs decide. -/
def sysCall (capacity : Nat) (s : State P) (p : P) (fail : Bool) : Option (State P) :=
  let c := s.caller p
  match c.pc, c.sem with
  | .mkfifo, _ =>
    if fail then some (s.giveUp p false)
    else
      match s.path with
      | some _ =>
        if c.call.excl then some (s.giveUp p false)
        else some (s.set p { c with pc := .malloc, creat := false })
      | none =>
        some { s.set p { c with pc := .malloc, created := some s.next } with
          path := some s.next, next := s.next + 1 }
  | .malloc, _ =>
    if fail then some (s.giveUp p c.creat)
    else some (s.set p { c with pc := .openRd, sem := some ⟨none, none, 0⟩ })
  | .openRd, some sem =>
    match fail, s.path with
    | false, some f =>
      some ((s.set p { c with pc := .openWr, sem := some { sem with sem_fd0 := some f } }).setFds p
        (s.fds p ++ [(f, .rd)]))
    | _, _ => some (s.error p)
  | .openWr, some sem =>
    -- Without a reader this is `ENXIO`.
    match fail, s.path with
    | false, some f =>
      if Open s.fds f .rd then
        some ((s.set p { c with pc := .getfl, sem := some { sem with sem_fd1 := some f } }).setFds p
          (s.fds p ++ [(f, .wr)]))
      else some (s.error p)
    | _, _ => some (s.error p)
  | .getfl, _ => if fail then some (s.error p) else some (s.goto p .setfl)
  | .setfl, some sem =>
    if fail then some (s.error p)
    else if c.creat then some (s.goto p (.write 0))
    else some (s.set p { c with pc := .ready none, sem := some { sem with sem_magic := SEM_MAGIC } })
  | .write i, some sem =>
    if i < c.call.value then
      match fail, sem.sem_fd1 with
      | false, some f =>
        some (s.tryWrite capacity p sem f ((s.goto p (.write (i + 1))).put f) (s.error p))
      | _, _ => some (s.error p)
    else some (s.set p { c with pc := .ready none, sem := some { sem with sem_magic := SEM_MAGIC } })
  | .errUnlink, _ =>
    if fail then some (s.set p { c with pc := .errClose0, left := true })
    else some { s.goto p .errClose0 with path := none }
  | .errClose0, some sem => some ((s.goto p .errClose1).close p sem.sem_fd0 .rd)
  | .errClose1, some sem =>
    some ((s.set p { c with pc := .failed, sem := none }).close p sem.sem_fd1 .wr)
  | .wait, some sem =>
    match sem.sem_fd0 with
    | some f =>
      if 0 < (s.fifo f).count then some ((s.goto p (.ready (some (.wait, 0)))).take f)
      else if Open s.fds f .wr then none
      else some (s.goto p (.ready (some (.wait, -1))))
    | none => some (s.goto p (.ready (some (.wait, -1))))
  | .post, some sem =>
    match sem.sem_fd1 with
    | some f =>
      some (s.tryWrite capacity p sem f ((s.goto p (.ready (some (.post, 0)))).put f)
        (s.goto p (.ready (some (.post, -1)))))
    | none => some (s.goto p (.ready (some (.post, -1))))
  | .close0, some sem => some ((s.goto p .close1).close p sem.sem_fd0 .rd)
  | .close1, some sem =>
    some ((s.set p { c with pc := .idle, sem := none }).close p sem.sem_fd1 .wr)
  | _, _ => none

/-- What a caller may be asked to do. The operations look at `sem_magic` first. -/
inductive Label (P : Type)
  | mysemOpen (p : P) (call : Call)
  | mysemOp (p : P) (op : Op)
  | mysemClose (p : P)
  | mysemUnlink (p : P)
  | sysCall (p : P) (fail : Bool)

def mysemOp (s : State P) (p : P) (op : Op) : Option (State P) :=
  match (s.caller p).pc, (s.caller p).sem with
  | .ready _, some sem =>
    if sem.sem_magic ≠ SEM_MAGIC then some (s.goto p (.ready (some (op, -1))))
    else some (s.goto p (match op with | .wait => .wait | .post => .post))
  | _, _ => none

def mysemClose (s : State P) (p : P) : Option (State P) :=
  match (s.caller p).pc, (s.caller p).sem with
  | .ready _, some sem =>
    if sem.sem_magic ≠ SEM_MAGIC then some s
    else some (s.set p { s.caller p with pc := .close0, sem := some { sem with sem_magic := 0 } })
  | _, _ => none

def step (capacity : Nat) (s : State P) : Label P → Option (State P)
  | .mysemOpen p call =>
    if (s.caller p).pc = .idle ∨ (s.caller p).pc = .failed then
      some (s.set p ⟨if call.creat then .mkfifo else .malloc, call, call.creat, none, none, false⟩)
    else none
  | .mysemOp p op => mysemOp s p op
  | .mysemClose p => mysemClose s p
  | .mysemUnlink p =>
    match (s.caller p).pc with
    | .idle | .failed | .ready _ => some { s with path := none }
    | _ => none
  | .sysCall p fail => sysCall capacity s p fail

/-- A pathname that leads nowhere, and nobody with a handle. -/
def system (P : Type) [DecidableEq P] [Fintype P] (capacity : Nat) : Lts (State P) (Label P) where
  init := ⟨fun _ => ⟨0, 0, 0⟩, none, 0,
    fun _ => ⟨.idle, ⟨false, false, 0⟩, false, none, none, false⟩, fun _ => []⟩
  step := step capacity

/-- The pathname is not moved while somebody has opened one end and not the other. -/
def Steady (capacity : Nat) (s : State P) (a : Label P) : Prop :=
  ∀ s', step capacity s a = some s' → s'.path = s.path ∨ ∀ q, (s.caller q).pc ≠ .openWr

-- ---------------------------------------------------------------------------
-- The descriptors of a caller
-- ---------------------------------------------------------------------------

/-- The descriptors behind the two fields. -/
def ends (fd0 fd1 : Option Nat) : List (Nat × End) :=
  (fd0.map fun f => (f, End.rd)).toList ++ (fd1.map fun f => (f, End.wr)).toList

def closeFds (fds : List (Nat × End)) (fd : Option Nat) (e : End) : List (Nat × End) :=
  match fd with
  | none => fds
  | some f => fds.erase (f, e)

/-- What a caller has allocated and opened at each point. -/
def HandleOk (c : Caller) (fds : List (Nat × End)) : Prop :=
  match c.pc with
  | .idle | .mkfifo | .malloc | .failed => c.sem = none ∧ fds = []
  | .openRd => c.sem = some ⟨none, none, 0⟩ ∧ fds = []
  | .openWr => ∃ f, c.sem = some ⟨some f, none, 0⟩ ∧ fds = ends (some f) none
  | .getfl | .setfl | .write _ =>
    ∃ f g, c.sem = some ⟨some f, some g, 0⟩ ∧ fds = ends (some f) (some g)
  | .ready _ | .wait | .post =>
    ∃ f g, c.sem = some ⟨some f, some g, SEM_MAGIC⟩ ∧ fds = ends (some f) (some g)
  | .close0 => ∃ f g, c.sem = some ⟨some f, some g, 0⟩ ∧ fds = ends (some f) (some g)
  | .close1 => ∃ f g, c.sem = some ⟨some f, some g, 0⟩ ∧ fds = ends none (some g)
  | .errUnlink | .errClose0 => ∃ a b, c.sem = some ⟨a, b, 0⟩ ∧ fds = ends a b
  | .errClose1 => ∃ a b, c.sem = some ⟨a, b, 0⟩ ∧ fds = ends none b
  | .killed => True

/-- `mysem_open` is past its attempt to unlink what it had made. -/
def Pc.Cleared : Pc → Prop
  | .errClose0 | .errClose1 | .failed => True
  | _ => False

structure CreatedOk (path : Option Nat) (next : Nat) (c : Caller) : Prop where
  fresh : c.pc = .mkfifo → c.created = none ∧ c.creat = true
  old : ∀ f, c.created = some f → f < next ∧ c.creat = true
  cleared : c.pc.Cleared → c.left = false → ∀ f, c.created = some f → path ≠ some f

/-- Somebody has the FIFO open. -/
def Held (fds : P → List (Nat × End)) (f : Nat) : Prop := Open fds f .rd ∨ Open fds f .wr

structure Inv (capacity : Nat) (s : State P) : Prop where
  handle : ∀ p, HandleOk (s.caller p) (s.fds p)
  account : ∀ f, (s.fifo f).count + (s.fifo f).taken = (s.fifo f).put
  bounded : ∀ f, (s.fifo f).count ≤ capacity
  held : ∀ f, 0 < (s.fifo f).count → Held s.fds f
  path : ∀ f, s.path = some f → f < s.next
  created : ∀ p, CreatedOk s.path s.next (s.caller p)

variable {capacity : Nat} {s s' : State P} {p q : P} {c : Caller} {fds : List (Nat × End)}
variable {fd : Option Nat} {e : End} {f : Nat} {fail : Bool} {a : Label P}

omit [DecidableEq P] [Fintype P] in
theorem forall_update {ι α : Type} [DecidableEq ι] {Q : α → Prop} {g : ι → α} {i : ι} {x : α}
    (h : ∀ j, Q (g j)) (hx : Q x) (j : ι) : Q (update g i x j) := by
  by_cases hj : j = i
  · subst hj
    rwa [update_self]
  · rw [update_of_ne hj]
    exact h j

omit [Fintype P] in
theorem handle_update (h : ∀ q, HandleOk (s.caller q) (s.fds q)) (hc : HandleOk c fds) (q : P) :
    HandleOk (update s.caller p c q) (update s.fds p fds q) := by
  by_cases hq : q = p
  · subst hq
    rwa [update_self, update_self]
  · rw [update_of_ne hq, update_of_ne hq]
    exact h q

omit [Fintype P] in
theorem set_self (s : State P) (p : P) : s.set p (s.caller p) = s := by
  rw [State.set, update_eq_self]

omit [Fintype P] in
theorem Inv.set (h : Inv capacity s) (hh : HandleOk c (s.fds p))
    (hc : CreatedOk s.path s.next c) : Inv capacity (s.set p c) where
  handle q := by
    have := handle_update (p := p) h.handle hh q
    rwa [update_eq_self] at this
  account := h.account
  bounded := h.bounded
  held := h.held
  path := h.path
  created := forall_update (Q := CreatedOk s.path s.next) h.created hc

omit [Fintype P] in
theorem Held.grow (h : Held s.fds f) (hsub : s.fds p ⊆ fds) : Held (update s.fds p fds) f := by
  have hone (e : End) (hopen : Open s.fds f e) : Open (update s.fds p fds) f e := by
    obtain ⟨q, hq⟩ := hopen
    refine ⟨q, ?_⟩
    by_cases hqp : q = p
    · subst hqp
      rw [update_self]
      exact hsub hq
    · rwa [update_of_ne hqp]
  exact h.imp (hone _) (hone _)

omit [Fintype P] in
theorem Inv.setFds (h : Inv capacity s) (hsub : s.fds p ⊆ fds) (hh : HandleOk c fds)
    (hc : CreatedOk s.path s.next c) : Inv capacity ((s.set p c).setFds p fds) where
  handle := handle_update h.handle hh
  account := h.account
  bounded := h.bounded
  held f hpos := (h.held f hpos).grow hsub
  path := h.path
  created := forall_update (Q := CreatedOk s.path s.next) h.created hc

theorem close_fields (s : State P) (p : P) (fd : Option Nat) (e : End) :
    (s.close p fd e).caller = s.caller ∧ (s.close p fd e).path = s.path ∧
    (s.close p fd e).next = s.next ∧
    (s.close p fd e).fds = update s.fds p (closeFds (s.fds p) fd e) ∧
    ∀ f, (s.close p fd e).fifo f = s.fifo f ∨ (s.close p fd e).fifo f = ⟨0, 0, 0⟩ := by
  cases fd with
  | none => exact ⟨rfl, rfl, rfl, (update_eq_self p s.fds).symm, fun _ => .inl rfl⟩
  | some g =>
    refine ⟨rfl, rfl, rfl, rfl, fun f => ?_⟩
    simp only [State.close]
    split
    · exact .inl rfl
    · by_cases hf : f = g
      · subst hf
        exact .inr (update_self ..)
      · exact .inl (update_of_ne hf ..)

/-- What is left in a FIFO after a `close` is held by somebody else. -/
theorem held_close (h : Held s.fds f) (hpos : 0 < ((s.close p fd e).fifo f).count) :
    Held (s.close p fd e).fds f := by
  cases fd with
  | none => exact h
  | some g =>
    by_cases hf : f = g
    · subst hf
      by_contra hnone
      unfold Held at hnone
      simp only [State.close] at hpos hnone
      rw [if_neg hnone, update_self] at hpos
      exact lt_irrefl _ hpos
    · have hone (e' : End) (hopen : Open s.fds f e') : Open (s.close p (some g) e).fds f e' := by
        obtain ⟨q, hq⟩ := hopen
        refine ⟨q, ?_⟩
        simp only [State.close]
        by_cases hqp : q = p
        · subst hqp
          rw [update_self]
          exact (List.mem_erase_of_ne fun heq => hf (Prod.mk.inj heq).1).mpr hq
        · rwa [update_of_ne hqp]
      exact h.imp (hone _) (hone _)

theorem Inv.close (h : Inv capacity s) (hh : HandleOk c (closeFds (s.fds p) fd e))
    (hc : CreatedOk s.path s.next c) : Inv capacity ((s.set p c).close p fd e) := by
  obtain ⟨hcaller, hpath, hnext, hfds, hfifo⟩ := close_fields (s.set p c) p fd e
  refine ⟨fun q => ?_, fun f => ?_, fun f => ?_, fun f hpos => ?_, ?_, fun q => ?_⟩
  · rw [hcaller, hfds]
    exact handle_update h.handle hh q
  · rcases hfifo f with heq | heq <;> rw [heq]
    · exact h.account f
    · rfl
  · rcases hfifo f with heq | heq <;> rw [heq]
    · exact h.bounded f
    · exact Nat.zero_le _
  · refine held_close (s := s.set p c) (h.held f ?_) hpos
    rcases hfifo f with heq | heq <;> rw [heq] at hpos
    · exact hpos
    · exact absurd hpos (lt_irrefl _)
  · rw [hpath, hnext]
    exact h.path
  · rw [hcaller, hpath, hnext]
    exact forall_update (Q := CreatedOk s.path s.next) h.created hc q

omit [DecidableEq P] [Fintype P] in
theorem Inv.put (h : Inv capacity s) (hopen : Open s.fds f .rd)
    (hroom : (s.fifo f).count < capacity) : Inv capacity (s.put f) where
  handle := h.handle
  account := forall_update (Q := fun x : Fifo => x.count + x.taken = x.put) h.account
    (by have := h.account f; simp only; omega)
  bounded := forall_update (Q := fun x : Fifo => x.count ≤ capacity) h.bounded hroom
  held g hpos := by
    by_cases hg : g = f
    · subst hg
      exact .inl hopen
    · simp only [State.put, update_of_ne hg] at hpos
      exact h.held g hpos
  path := h.path
  created := h.created

omit [DecidableEq P] [Fintype P] in
theorem Inv.take (h : Inv capacity s) (hpos : 0 < (s.fifo f).count) : Inv capacity (s.take f) where
  handle := h.handle
  account := forall_update (Q := fun x : Fifo => x.count + x.taken = x.put) h.account
    (by have := h.account f; simp only; omega)
  bounded := forall_update (Q := fun x : Fifo => x.count ≤ capacity) h.bounded
    (by have := h.bounded f; simp only; omega)
  held g hpos := by
    by_cases hg : g = f
    · subst hg
      simp only [State.take, update_self] at hpos
      exact h.held g (lt_of_lt_of_le hpos (Nat.sub_le _ _))
    · simp only [State.take, update_of_ne hg] at hpos
      exact h.held g hpos
  path := h.path
  created := h.created

/-- A step that keeps what has been created, to a point that is not past the unlink. -/
theorem CreatedOk.move (h : CreatedOk path next c) (hnew : ¬ c'.pc.Cleared)
    (hmk : c'.pc ≠ .mkfifo) (hsame : c'.created = c.created ∧ c'.creat = c.creat) :
    CreatedOk path next c' where
  fresh hpc := absurd hpc hmk
  old f hf := by
    rw [hsame.2]
    exact h.old f (hsame.1 ▸ hf)
  cleared hpc := absurd hpc hnew

omit [Fintype P] in
theorem Inv.error (h : Inv capacity s)
    (hsem : ∃ a b, (s.caller p).sem = some ⟨a, b, 0⟩ ∧ s.fds p = ends a b) :
    Inv capacity (s.error p) := by
  have hold := h.created p
  unfold State.error State.goto
  split
  · exact h.set hsem (hold.move id nofun ⟨rfl, rfl⟩)
  · rename_i hcreat
    refine h.set hsem ⟨nofun, hold.old, fun _ _ f hf => ?_⟩
    exact absurd (hold.old f hf).2 hcreat

theorem Inv.die (h : Inv capacity s) (sem : Mysem) : Inv capacity (s.die p sem) := by
  have hold := h.created p
  have hfirst : Inv capacity ((s.goto p .killed).close p sem.sem_fd0 .rd) :=
    h.close trivial (hold.move id nofun ⟨rfl, rfl⟩)
  obtain ⟨hcaller, -⟩ := close_fields (s.goto p .killed) p sem.sem_fd0 .rd
  have hpc : (((s.goto p .killed).close p sem.sem_fd0 .rd).caller p).pc = .killed := by
    rw [hcaller]
    simp [State.goto, State.set]
  let half := (s.goto p .killed).close p sem.sem_fd0 .rd
  have hhandle : HandleOk (half.caller p) (closeFds (half.fds p) sem.sem_fd1 .wr) := by
    unfold HandleOk
    rw [hpc]
    trivial
  have hsecond := hfirst.close hhandle (hfirst.created p)
  rwa [set_self] at hsecond

theorem Inv.tryWrite (h : Inv capacity s) {sem : Mysem} {done full : State P}
    (hdone : Open s.fds f .rd → (s.fifo f).count < capacity → Inv capacity done)
    (hfull : Inv capacity full) : Inv capacity (s.tryWrite capacity p sem f done full) := by
  unfold State.tryWrite
  split
  · rename_i hopen
    split
    · rename_i hroom
      exact hdone hopen hroom
    · exact hfull
  · exact h.die sem

theorem inv_mkfifo (h : Inv capacity s) (hpc : (s.caller p).pc = .mkfifo)
    (hh : (s.caller p).sem = none ∧ s.fds p = [])
    (hstep : sysCall capacity s p fail = some s') : Inv capacity s' := by
  have hc := h.created p
  obtain ⟨hnone, hcreat⟩ := hc.fresh hpc
  have hgive : Inv capacity (s.giveUp p false) :=
    h.set hh ⟨nofun, hc.old, fun _ _ f hf => by rw [hnone] at hf; cases hf⟩
  simp only [sysCall, hpc] at hstep
  split at hstep
  · cases hstep
    exact hgive
  · cases hpath : s.path with
    | some f =>
      simp only [hpath] at hstep
      split at hstep <;> cases hstep
      · exact hgive
      · refine h.set hh ⟨nofun, fun f hf => ?_, fun hcl => hcl.elim⟩
        simp [hnone] at hf
    | none =>
      simp only [hpath, Option.some.injEq] at hstep
      subst hstep
      -- the others made theirs before
      have hother (c : Caller) (hc : CreatedOk s.path s.next c) :
          CreatedOk (some s.next) (s.next + 1) c :=
        ⟨hc.fresh, fun f hf => ⟨(hc.old f hf).1.trans (Nat.lt_succ_self _), (hc.old f hf).2⟩,
          fun _ _ f hf heq => by
            cases heq
            exact absurd (hc.old _ hf).1 (lt_irrefl _)⟩
      refine ⟨fun q => ?_, h.account, h.bounded, h.held, fun f hf => ?_, ?_⟩
      · have := handle_update (p := p) h.handle (c := { s.caller p with
          pc := .malloc, created := some s.next }) hh q
        rwa [update_eq_self] at this
      · cases hf
        exact Nat.lt_succ_self _
      · refine forall_update (Q := CreatedOk (some s.next) (s.next + 1))
          (fun q => hother _ (h.created q)) ⟨nofun, fun f hf => ?_, fun hcl => hcl.elim⟩
        cases hf
        exact ⟨Nat.lt_succ_self _, hcreat⟩

theorem inv_openRd (h : Inv capacity s) (hpc : (s.caller p).pc = .openRd)
    (hh : (s.caller p).sem = some ⟨none, none, 0⟩ ∧ s.fds p = [])
    (hstep : sysCall capacity s p fail = some s') : Inv capacity s' := by
  obtain ⟨hsem, hfds⟩ := hh
  have herr : Inv capacity (s.error p) := h.error ⟨none, none, hsem, hfds⟩
  simp only [sysCall, hpc, hsem] at hstep
  split at hstep <;> cases hstep
  · rename_i f _
    refine h.setFds (List.subset_append_left _ _) ?_ ((h.created p).move id nofun ⟨rfl, rfl⟩)
    rw [hfds]
    exact ⟨f, rfl, rfl⟩
  · exact herr

theorem inv_openWr (h : Inv capacity s) (hpc : (s.caller p).pc = .openWr)
    (hh : ∃ f, (s.caller p).sem = some ⟨some f, none, 0⟩ ∧ s.fds p = ends (some f) none)
    (hstep : sysCall capacity s p fail = some s') : Inv capacity s' := by
  obtain ⟨f, hsem, hfds⟩ := hh
  have herr : Inv capacity (s.error p) := h.error ⟨some f, none, hsem, hfds⟩
  simp only [sysCall, hpc, hsem] at hstep
  split at hstep
  · rename_i g _
    split at hstep <;> cases hstep
    · refine h.setFds (List.subset_append_left _ _) ?_ ((h.created p).move id nofun ⟨rfl, rfl⟩)
      rw [hfds]
      exact ⟨f, g, rfl, rfl⟩
    · exact herr
  · cases hstep
    exact herr

/-- The `fcntl` calls and the bytes of the initial value. -/
theorem inv_initialise (h : Inv capacity s)
    (hpc : (s.caller p).pc = .getfl ∨ (s.caller p).pc = .setfl ∨ ∃ i, (s.caller p).pc = .write i)
    (hh : ∃ f g, (s.caller p).sem = some ⟨some f, some g, 0⟩ ∧ s.fds p = ends (some f) (some g))
    (hstep : sysCall capacity s p fail = some s') : Inv capacity s' := by
  obtain ⟨f, g, hsem, hfds⟩ := hh
  have hc := h.created p
  have herr : Inv capacity (s.error p) := h.error ⟨some f, some g, hsem, hfds⟩
  have hready : Inv capacity (s.set p { s.caller p with
      pc := .ready none, sem := some ⟨some f, some g, SEM_MAGIC⟩ }) :=
    h.set ⟨f, g, rfl, hfds⟩ (hc.move id nofun ⟨rfl, rfl⟩)
  rcases hpc with hpc | hpc | ⟨i, hpc⟩ <;> simp only [sysCall, hpc, hsem] at hstep
  · split at hstep <;> cases hstep
    · exact herr
    · exact h.set ⟨f, g, hsem, hfds⟩ (hc.move id nofun ⟨rfl, rfl⟩)
  · split at hstep
    · cases hstep
      exact herr
    · split at hstep <;> cases hstep
      · exact h.set ⟨f, g, hsem, hfds⟩ (hc.move id nofun ⟨rfl, rfl⟩)
      · exact hready
  · split at hstep
    · cases fail with
      | true =>
        cases hstep
        exact herr
      | false =>
        simp only [Option.some.injEq] at hstep
        subst hstep
        refine h.tryWrite (fun hopen hroom => Inv.put ?_ hopen hroom) herr
        exact h.set ⟨f, g, hsem, hfds⟩ (hc.move id nofun ⟨rfl, rfl⟩)
    · cases hstep
      exact hready

/-- From `error:` to the return. -/
theorem inv_error (h : Inv capacity s)
    (hpc : (s.caller p).pc = .errUnlink ∨ (s.caller p).pc = .errClose0)
    (hh : ∃ a b, (s.caller p).sem = some ⟨a, b, 0⟩ ∧ s.fds p = ends a b)
    (hstep : sysCall capacity s p fail = some s') : Inv capacity s' := by
  have hc := h.created p
  obtain ⟨a, b, hsem, hfds⟩ := hh
  rcases hpc with hpc | hpc <;> simp only [sysCall, hpc, hsem] at hstep
  · split at hstep <;> cases hstep
    · exact h.set ⟨a, b, rfl, hfds⟩ ⟨nofun, hc.old, nofun⟩
    · -- the pathname leads nowhere now
      have hgone (c : Caller) (hc : CreatedOk s.path s.next c) : CreatedOk none s.next c :=
        ⟨hc.fresh, hc.old, fun _ _ _ _ => nofun⟩
      refine ⟨fun q => ?_, h.account, h.bounded, h.held, nofun, ?_⟩
      · have hnew : HandleOk { s.caller p with pc := .errClose0 } (s.fds p) := ⟨a, b, hsem, hfds⟩
        have hupdate := handle_update (p := p) h.handle hnew q
        rwa [update_eq_self] at hupdate
      · exact forall_update (Q := CreatedOk none s.next) (fun q => hgone _ (h.created q))
          ⟨nofun, hc.old, fun _ _ _ _ => nofun⟩
  · cases hstep
    refine h.close ⟨a, b, hsem, ?_⟩ ⟨nofun, hc.old, fun _ hl => ?_⟩
    · rw [hfds]
      cases a <;> simp [closeFds, ends]
    · exact hc.cleared (by rw [hpc]; trivial) hl

theorem inv_errClose1 (h : Inv capacity s) (hpc : (s.caller p).pc = .errClose1)
    (hh : ∃ a b, (s.caller p).sem = some ⟨a, b, 0⟩ ∧ s.fds p = ends none b)
    (hstep : sysCall capacity s p fail = some s') : Inv capacity s' := by
  have hc := h.created p
  obtain ⟨a, b, hsem, hfds⟩ := hh
  simp only [sysCall, hpc, hsem] at hstep
  cases hstep
  refine h.close ⟨rfl, ?_⟩ ⟨nofun, hc.old, fun _ hl => ?_⟩
  · rw [hfds]
    cases b <;> simp [closeFds, ends]
  · exact hc.cleared (by rw [hpc]; trivial) hl

/-- `mysem_wait` and `mysem_post`. -/
theorem inv_operation (h : Inv capacity s)
    (hpc : (s.caller p).pc = .wait ∨ (s.caller p).pc = .post)
    (hh : ∃ f g, (s.caller p).sem = some ⟨some f, some g, SEM_MAGIC⟩ ∧
      s.fds p = ends (some f) (some g))
    (hstep : sysCall capacity s p fail = some s') : Inv capacity s' := by
  obtain ⟨f, g, hsem, hfds⟩ := hh
  have hback (last : Option (Op × Int)) : Inv capacity (s.goto p (.ready last)) :=
    h.set ⟨f, g, hsem, hfds⟩ ((h.created p).move id nofun ⟨rfl, rfl⟩)
  rcases hpc with hpc | hpc <;> simp only [sysCall, hpc, hsem] at hstep
  · split at hstep
    · rename_i hpos
      cases hstep
      exact (hback _).take hpos
    · split at hstep <;> cases hstep
      exact hback _
  · cases hstep
    exact h.tryWrite (fun hopen hroom => (hback _).put hopen hroom) (hback _)

/-- `mysem_close`. -/
theorem inv_close (h : Inv capacity s)
    (hpc : (s.caller p).pc = .close0 ∨ (s.caller p).pc = .close1)
    (hh : HandleOk (s.caller p) (s.fds p))
    (hstep : sysCall capacity s p fail = some s') : Inv capacity s' := by
  have hc := h.created p
  unfold HandleOk at hh
  rcases hpc with hpc | hpc <;> simp only [hpc] at hh <;> obtain ⟨f, g, hsem, hfds⟩ := hh <;>
    simp only [sysCall, hpc, hsem] at hstep <;> cases hstep
  · refine h.close ⟨f, g, hsem, ?_⟩ (hc.move id nofun ⟨rfl, rfl⟩)
    rw [hfds]
    simp [closeFds, ends]
  · refine h.close ⟨rfl, ?_⟩ (hc.move id nofun ⟨rfl, rfl⟩)
    rw [hfds]
    simp [closeFds, ends]

theorem inv_sysCall (h : Inv capacity s) (hstep : sysCall capacity s p fail = some s') :
    Inv capacity s' := by
  have hh := h.handle p
  have hc := h.created p
  have hclose := hh
  unfold HandleOk at hh
  cases hpc : (s.caller p).pc <;> simp only [hpc] at hh
  case mkfifo => exact inv_mkfifo h hpc hh hstep
  case malloc =>
    simp only [sysCall, hpc] at hstep
    split at hstep <;> cases hstep
    · -- a FIFO that was made stays
      refine h.set hh ⟨nofun, hc.old, fun _ hl f hf => ?_⟩
      have := (hc.old f hf).2
      rw [show (s.caller p).creat = false from hl] at this
      cases this
    · exact h.set ⟨rfl, hh.2⟩ (hc.move id nofun ⟨rfl, rfl⟩)
  case openRd => exact inv_openRd h hpc hh hstep
  case openWr => exact inv_openWr h hpc hh hstep
  case getfl => exact inv_initialise h (.inl hpc) hh hstep
  case setfl => exact inv_initialise h (.inr (.inl hpc)) hh hstep
  case write i => exact inv_initialise h (.inr (.inr ⟨i, hpc⟩)) hh hstep
  case errUnlink => exact inv_error h (.inl hpc) hh hstep
  case errClose0 => exact inv_error h (.inr hpc) hh hstep
  case errClose1 => exact inv_errClose1 h hpc hh hstep
  case wait => exact inv_operation h (.inl hpc) hh hstep
  case post => exact inv_operation h (.inr hpc) hh hstep
  case close0 => exact inv_close h (.inl hpc) hclose hstep
  case close1 => exact inv_close h (.inr hpc) hclose hstep
  all_goals simp [sysCall, hpc] at hstep

theorem inv_step (h : Inv capacity s) (hstep : step capacity s a = some s') : Inv capacity s' := by
  cases a <;> simp only [step] at hstep
  case mysemOpen p call =>
    simp only [Option.ite_none_right_eq_some, Option.some.injEq] at hstep
    obtain ⟨hpc, rfl⟩ := hstep
    have hfds : s.fds p = [] := by
      have hh := h.handle p
      unfold HandleOk at hh
      rcases hpc with hpc | hpc <;> simp only [hpc] at hh <;> exact hh.2
    refine h.set ?_ ⟨fun hmk => ⟨rfl, ?_⟩, nofun, fun _ _ => nofun⟩
    · unfold HandleOk
      cases call.creat <;> exact ⟨rfl, hfds⟩
    · by_contra hcreat
      simp [hcreat] at hmk
  case mysemOp p op =>
    have hh := h.handle p
    unfold mysemOp at hstep
    split at hstep
    · rename_i last sem hpc hsem
      unfold HandleOk at hh
      simp only [hpc] at hh
      split at hstep <;> cases hstep
      · exact h.set hh ((h.created p).move id nofun ⟨rfl, rfl⟩)
      · cases op <;> exact h.set hh ((h.created p).move id nofun ⟨rfl, rfl⟩)
    · cases hstep
  case mysemClose p =>
    have hh := h.handle p
    unfold mysemClose at hstep
    split at hstep
    · rename_i last sem hpc hsem
      unfold HandleOk at hh
      simp only [hpc, hsem] at hh
      obtain ⟨f, g, heq, hfds⟩ := hh
      cases heq
      split at hstep <;> cases hstep
      · exact h
      · exact h.set ⟨f, g, rfl, hfds⟩ ((h.created p).move id nofun ⟨rfl, rfl⟩)
    · cases hstep
  case mysemUnlink p =>
    have hgone : Inv capacity { s with path := none } :=
      ⟨h.handle, h.account, h.bounded, h.held, nofun, fun q =>
        ⟨(h.created q).fresh, (h.created q).old, fun _ _ _ _ => nofun⟩⟩
    split at hstep <;> cases hstep <;> exact hgone
  case sysCall p fail => exact inv_sysCall h hstep

theorem inv_of_reachable {ok : State P → Label P → Prop}
    (h : (system P capacity).Reachable ok s) : Inv capacity s :=
  h.invariant (P := Inv capacity)
    ⟨fun _ => ⟨rfl, rfl⟩, fun _ => rfl, fun _ => Nat.zero_le _,
      fun _ hpos => absurd hpos (lt_irrefl _), nofun, fun _ => ⟨nofun, nofun, fun _ _ => nofun⟩⟩
    fun _ _ _ hs _ hstep => inv_step hs hstep

-- ---------------------------------------------------------------------------
-- Both ends in one FIFO
-- ---------------------------------------------------------------------------

/-- Both ends have been opened. -/
def Pc.Whole : Pc → Prop
  | .getfl | .setfl | .write _ | .ready _ | .wait | .post | .close0 | .close1 => True
  | _ => False

structure Sound (path : Option Nat) (c : Caller) : Prop where
  alive : c.pc ≠ .killed
  half : c.pc = .openWr → ∀ sem, c.sem = some sem → sem.sem_fd0 = path
  whole : c.pc.Whole → ∀ sem, c.sem = some sem → sem.sem_fd0 = sem.sem_fd1
  waited : ∀ r, c.pc = .ready (some (.wait, r)) → r = 0

/-- Points with nothing to keep. -/
def Pc.Plain : Pc → Prop
  | .idle | .mkfifo | .malloc | .openRd | .errUnlink | .errClose0 | .errClose1 | .failed => True
  | _ => False

theorem Sound.of_plain (h : c.pc.Plain) : Sound path c := by
  refine ⟨fun hk => ?_, fun ho => ?_, fun hw => ?_, fun r hr => ?_⟩
  · rw [hk] at h
    exact h
  · rw [ho] at h
    exact h.elim
  · cases hpc : c.pc <;> simp only [hpc, Pc.Plain, Pc.Whole] at h hw
  · rw [hr] at h
    exact h.elim

/-- At a point where both ends are open, and nothing has been returned by a wait. -/
theorem Sound.of_whole (hw : c.pc.Whole) (hsem : c.sem = some sem)
    (heq : sem.sem_fd0 = sem.sem_fd1) (hlast : ∀ r, c.pc = .ready (some (.wait, r)) → r = 0) :
    Sound path c := by
  refine ⟨fun hk => ?_, fun ho => ?_, fun _ sem' hsem' => ?_, hlast⟩
  · rw [hk] at hw
    exact hw
  · rw [ho] at hw
    exact hw.elim
  · rw [hsem] at hsem'
    cases hsem'
    exact heq

omit [Fintype P] in
theorem sound_error (s : State P) (p : P) : ∃ c, (s.error p).caller = update s.caller p c ∧
    Sound (s.error p).path c := by
  unfold State.error State.goto State.set
  split <;> exact ⟨_, rfl, .of_plain trivial⟩

/-- A caller that holds both ends of `f` writes to a FIFO with a reader. -/
theorem tryWrite_of_open (s : State P) (p : P) (sem : Mysem) (done full : State P)
    (hopen : Open s.fds f .rd) : s.tryWrite capacity p sem f done full = done ∨
      s.tryWrite capacity p sem f done full = full := by
  unfold State.tryWrite
  rw [if_pos hopen]
  split
  · exact .inl rfl
  · exact .inr rfl

omit [DecidableEq P] [Fintype P] in
theorem open_of_ends (hfds : s.fds p = ends (some f) (some f)) (e : End) : Open s.fds f e :=
  ⟨p, by rw [hfds]; cases e <;> simp [ends]⟩

/-- What a system call makes of its caller. -/
theorem sound_sysCall (h : Inv capacity s) (hp : Sound s.path (s.caller p))
    (hstep : sysCall capacity s p fail = some s') :
    ∃ c, s'.caller = update s.caller p c ∧ Sound s'.path c := by
  have hh := h.handle p
  unfold HandleOk at hh
  cases hpc : (s.caller p).pc <;> simp only [hpc] at hh
  case mkfifo =>
    simp only [sysCall, hpc] at hstep
    repeat' split at hstep
    all_goals
      cases hstep
      exact ⟨_, rfl, .of_plain trivial⟩
  case malloc =>
    simp only [sysCall, hpc] at hstep
    split at hstep <;> cases hstep <;> exact ⟨_, rfl, .of_plain trivial⟩
  case openRd =>
    simp only [sysCall, hpc, hh.1] at hstep
    split at hstep <;> cases hstep
    · rename_i f hpath
      refine ⟨_, rfl, nofun, fun _ sem hsem => ?_, fun hw => hw.elim, nofun⟩
      cases hsem
      exact hpath.symm
    · exact sound_error s p
  case openWr =>
    obtain ⟨f, hsem, hfds⟩ := hh
    simp only [sysCall, hpc, hsem] at hstep
    have hhalf := hp.half hpc _ hsem
    split at hstep
    · rename_i g hpath
      split at hstep <;> cases hstep
      · exact ⟨_, rfl, .of_whole trivial rfl (hhalf.trans hpath) nofun⟩
      · exact sound_error s p
    · cases hstep
      exact sound_error s p
  case getfl =>
    obtain ⟨f, g, hsem, -⟩ := hh
    simp only [sysCall, hpc] at hstep
    split at hstep <;> cases hstep
    · exact sound_error s p
    · exact ⟨_, rfl, .of_whole trivial hsem (hp.whole (by rw [hpc]; trivial) _ hsem) nofun⟩
  case setfl =>
    obtain ⟨f, g, hsem, -⟩ := hh
    have hfg : some f = some g := hp.whole (by rw [hpc]; trivial) _ hsem
    simp only [sysCall, hpc, hsem] at hstep
    split at hstep
    · cases hstep
      exact sound_error s p
    · split at hstep <;> cases hstep
      · exact ⟨_, rfl, .of_whole trivial hsem hfg nofun⟩
      · exact ⟨_, rfl, .of_whole trivial rfl hfg nofun⟩
  case write i =>
    obtain ⟨f, g, hsem, hfds⟩ := hh
    have hfg : some f = some g := hp.whole (by rw [hpc]; trivial) _ hsem
    cases hfg
    simp only [sysCall, hpc, hsem] at hstep
    split at hstep
    · cases fail with
      | true =>
        cases hstep
        exact sound_error s p
      | false =>
        simp only [Option.some.injEq] at hstep
        subst hstep
        rcases tryWrite_of_open s p ⟨some f, some f, 0⟩ ((s.goto p (.write (i + 1))).put f)
          (s.error p) (open_of_ends hfds .rd) with heq | heq <;> rw [heq]
        · exact ⟨_, rfl, .of_whole trivial hsem rfl nofun⟩
        · exact sound_error s p
    · cases hstep
      exact ⟨_, rfl, .of_whole trivial rfl rfl nofun⟩
  case errUnlink =>
    simp only [sysCall, hpc] at hstep
    split at hstep <;> cases hstep <;> exact ⟨_, rfl, .of_plain trivial⟩
  case errClose0 | errClose1 =>
    obtain ⟨a, b, hsem, -⟩ := hh
    simp only [sysCall, hpc, hsem] at hstep
    cases hstep
    rw [(close_fields _ p _ _).1]
    exact ⟨_, rfl, .of_plain trivial⟩
  case wait =>
    obtain ⟨f, g, hsem, hfds⟩ := hh
    have hfg : some f = some g := hp.whole (by rw [hpc]; trivial) _ hsem
    cases hfg
    simp only [sysCall, hpc, hsem, if_pos (open_of_ends hfds .wr)] at hstep
    simp only [Option.ite_none_right_eq_some, Option.some.injEq] at hstep
    obtain ⟨-, rfl⟩ := hstep
    refine ⟨_, rfl, .of_whole trivial hsem rfl fun r hr => ?_⟩
    cases hr
    rfl
  case post =>
    obtain ⟨f, g, hsem, hfds⟩ := hh
    have hfg : some f = some g := hp.whole (by rw [hpc]; trivial) _ hsem
    cases hfg
    simp only [sysCall, hpc, hsem, Option.some.injEq] at hstep
    subst hstep
    rcases tryWrite_of_open s p ⟨some f, some f, SEM_MAGIC⟩
      ((s.goto p (.ready (some (.post, 0)))).put f) (s.goto p (.ready (some (.post, -1))))
      (open_of_ends hfds .rd) with heq | heq <;> rw [heq] <;>
      exact ⟨_, rfl, .of_whole trivial hsem rfl nofun⟩
  case close0 =>
    obtain ⟨f, g, hsem, -⟩ := hh
    have hfg : some f = some g := hp.whole (by rw [hpc]; trivial) _ hsem
    simp only [sysCall, hpc, hsem] at hstep
    cases hstep
    rw [(close_fields _ p _ _).1]
    exact ⟨_, rfl, .of_whole trivial hsem hfg nofun⟩
  case close1 =>
    obtain ⟨f, g, hsem, -⟩ := hh
    simp only [sysCall, hpc, hsem] at hstep
    cases hstep
    rw [(close_fields _ p _ _).1]
    exact ⟨_, rfl, .of_plain trivial⟩
  all_goals simp [sysCall, hpc] at hstep

theorem Sound.move (h : Sound path c) (hp : path' = path ∨ c.pc ≠ .openWr) : Sound path' c := by
  refine ⟨h.alive, fun ho => ?_, h.whole, h.waited⟩
  rcases hp with rfl | hne
  · exact h.half ho
  · exact absurd ho hne

omit [Fintype P] in
/-- One caller moves, and the pathname only while nobody is between the two opens. -/
theorem sound_update (h : ∀ q, Sound s.path (s.caller q))
    (hsteady : s'.path = s.path ∨ ∀ q, (s.caller q).pc ≠ .openWr)
    (hp : ∃ c, s'.caller = update s.caller p c ∧ Sound s'.path c) (q : P) :
    Sound s'.path (s'.caller q) := by
  obtain ⟨c, hcaller, hc⟩ := hp
  rw [hcaller]
  refine forall_update (Q := Sound s'.path) (fun q => ?_) hc q
  exact (h q).move (hsteady.imp_right fun hall => hall q)

theorem sound_step (hinv : Inv capacity s) (h : ∀ q, Sound s.path (s.caller q))
    (hok : Steady capacity s a) (hstep : step capacity s a = some s') (q : P) :
    Sound s'.path (s'.caller q) := by
  have hsteady := hok s' hstep
  cases a <;> simp only [step] at hstep
  case mysemOpen p call =>
    simp only [Option.ite_none_right_eq_some, Option.some.injEq] at hstep
    obtain ⟨-, rfl⟩ := hstep
    refine sound_update h hsteady ⟨_, rfl, .of_plain ?_⟩ q
    cases call.creat <;> trivial
  case mysemOp p op =>
    unfold mysemOp at hstep
    split at hstep
    · rename_i last sem hpc hsem
      have hw := (h p).whole (by rw [hpc]; trivial) sem hsem
      have hh := hinv.handle p
      unfold HandleOk at hh
      simp only [hpc, hsem] at hh
      obtain ⟨f, g, heq, -⟩ := hh
      cases heq
      rw [if_neg (fun hne => hne rfl)] at hstep
      cases hstep
      refine sound_update h hsteady ⟨_, rfl, ?_⟩ q
      cases op <;> exact .of_whole trivial hsem hw nofun
    · cases hstep
  case mysemClose p =>
    unfold mysemClose at hstep
    split at hstep
    · rename_i last sem hpc hsem
      have hw := (h p).whole (by rw [hpc]; trivial) sem hsem
      split at hstep <;> cases hstep
      · exact h q
      · exact sound_update h hsteady ⟨_, rfl, .of_whole trivial rfl hw nofun⟩ q
    · cases hstep
  case mysemUnlink p =>
    have hkeep : s'.caller = s.caller := by split at hstep <;> cases hstep <;> rfl
    rw [hkeep]
    exact (h q).move (hsteady.imp_right fun hall => hall q)
  case sysCall p fail => exact sound_update h hsteady (sound_sysCall hinv (h p) hstep) q

theorem sound_of_reachable (h : (system P capacity).Reachable (Steady capacity) s) (q : P) :
    Sound s.path (s.caller q) := by
  have hall : Inv capacity s ∧ ∀ q, Sound s.path (s.caller q) :=
    h.invariant (P := fun s => Inv capacity s ∧ ∀ q, Sound s.path (s.caller q))
      ⟨inv_of_reachable (.init : (system P capacity).Reachable anyStep _), fun _ => .of_plain trivial⟩
      fun _ _ _ hs hok hstep => ⟨inv_step hs.1 hstep, sound_step hs.1 hs.2 hok hstep⟩
  exact hall.2 q

-- ---------------------------------------------------------------------------
-- What the callers can rely on
-- ---------------------------------------------------------------------------

section

variable {f : Nat} {sem : Mysem} {c : Caller}

omit [DecidableEq P] [Fintype P] in
/-- Where both ends are open, they are the two ends of one FIFO. -/
theorem one_fifo (hp : Sound s.path (s.caller p)) (hw : (s.caller p).pc.Whole)
    (hsem : ∃ f g, (s.caller p).sem = some ⟨some f, some g, SEM_MAGIC⟩ ∧
      s.fds p = ends (some f) (some g)) :
    ∃ f, (s.caller p).sem = some ⟨some f, some f, SEM_MAGIC⟩ ∧ s.fds p = ends (some f) (some f) := by
  obtain ⟨f, g, heq, hfds⟩ := hsem
  have hfg : some f = some g := hp.whole hw _ heq
  cases hfg
  exact ⟨f, heq, hfds⟩

/-- `mysem_wait` on one FIFO blocks while it is empty, and only then. -/
theorem wait_blocks_iff (hpc : (s.caller p).pc = .wait)
    (hsem : (s.caller p).sem = some ⟨some f, some f, SEM_MAGIC⟩)
    (hfds : s.fds p = ends (some f) (some f)) (fail : Bool) :
    sysCall capacity s p fail = none ↔ (s.fifo f).count = 0 := by
  simp only [sysCall, hpc, hsem, if_pos (open_of_ends hfds .wr)]
  simp only [reduceCtorEq, ite_eq_right_iff, imp_false]
  omega

/-- `mysem_post` on one FIFO returns at once: −1 where the FIFO is full. -/
theorem post_returns (hpc : (s.caller p).pc = .post)
    (hsem : (s.caller p).sem = some ⟨some f, some f, SEM_MAGIC⟩)
    (hfds : s.fds p = ends (some f) (some f)) (fail : Bool) :
    ∃ s', sysCall capacity s p fail = some s' ∧ (s'.caller p).pc =
      .ready (some (.post, if (s.fifo f).count < capacity then 0 else -1)) := by
  simp only [sysCall, hpc, hsem, State.tryWrite, if_pos (open_of_ends hfds .rd)]
  refine ⟨_, rfl, ?_⟩
  split <;> simp [State.put, State.goto, State.set]

end

instance (capacity : Nat) (s : State P) (a : Label P) : Decidable (Steady capacity s a) :=
  match h : step capacity s a with
  | none => .isTrue fun s' hs' => by rw [h] at hs'; cases hs'
  | some t =>
    decidable_of_iff (t.path = s.path ∨ ∀ q, (s.caller q).pc ≠ .openWr)
      ⟨fun ht s' hs' => by rw [h] at hs'; cases hs'; exact ht, fun hs => hs t h⟩

/-- While the name is not moved between the two `open` calls of a caller, every FIFO is
a semaphore: it holds what was put in it less what was taken, never more than its
capacity, and nothing once everybody has closed it. No caller dies of `SIGPIPE`; an open
handle leads to one FIFO; a wait returns 0 and blocks exactly while the semaphore is 0; a
post never blocks, and fails exactly when the FIFO is full. -/
theorem fifo_semaphore_counts (h : (system P capacity).Reachable (Steady capacity) s) :
    (∀ f, (s.fifo f).count + (s.fifo f).taken = (s.fifo f).put ∧ (s.fifo f).count ≤ capacity ∧
      (0 < (s.fifo f).count → ∃ q e, (f, e) ∈ s.fds q)) ∧
    ∀ p, (s.caller p).pc ≠ .killed ∧
      (∀ r, (s.caller p).pc = .ready (some (.wait, r)) → r = 0) ∧
      (∀ last, (s.caller p).pc = .ready last → ∃ f,
        (s.caller p).sem = some ⟨some f, some f, SEM_MAGIC⟩ ∧ s.fds p = [(f, .rd), (f, .wr)]) ∧
      ((s.caller p).pc = .wait → ∃ f, (s.caller p).sem = some ⟨some f, some f, SEM_MAGIC⟩ ∧
        ∀ fail, sysCall capacity s p fail = none ↔ (s.fifo f).count = 0) ∧
      ((s.caller p).pc = .post → ∃ f, (s.caller p).sem = some ⟨some f, some f, SEM_MAGIC⟩ ∧
        ∀ fail, ∃ s', sysCall capacity s p fail = some s' ∧ (s'.caller p).pc =
          .ready (some (.post, if (s.fifo f).count < capacity then 0 else -1))) := by
  have hinv := inv_of_reachable h
  refine ⟨fun f => ⟨hinv.account f, hinv.bounded f, fun hpos => ?_⟩, fun p => ?_⟩
  · rcases hinv.held f hpos with ⟨q, hq⟩ | ⟨q, hq⟩
    · exact ⟨q, .rd, hq⟩
    · exact ⟨q, .wr, hq⟩
  have hp := sound_of_reachable h p
  have hh := hinv.handle p
  unfold HandleOk at hh
  refine ⟨hp.alive, hp.waited, fun last hpc => ?_, fun hpc => ?_, fun hpc => ?_⟩ <;>
    simp only [hpc] at hh <;> obtain ⟨f, hsem, hfds⟩ := one_fifo hp (by rw [hpc]; trivial) hh
  · exact ⟨f, hsem, hfds⟩
  · exact ⟨f, hsem, wait_blocks_iff hpc hsem hfds⟩
  · exact ⟨f, hsem, post_returns hpc hsem hfds⟩

/-- One creates the semaphore at 1 and waits, and waits again, while the other opens it. -/
theorem fifo_semaphore_counts_two :
    ∃ s : State Bool, (system Bool 4).Reachable (Steady 4) s ∧
      (s.caller true).pc = .wait ∧ (∃ f, (s.caller true).sem = some ⟨some f, some f, SEM_MAGIC⟩ ∧
        ∀ fail, sysCall 4 s true fail = none ↔ (s.fifo f).count = 0) ∧
      ∃ last f, (s.caller false).pc = .ready last ∧
        (s.caller false).sem = some ⟨some f, some f, SEM_MAGIC⟩ := by
  obtain ⟨s, hs, hcheck⟩ := reachable_of_execIf (system Bool 4)
    (fun s a => decide (Steady 4 s a)) (fun s a hok => show Steady 4 s a from of_decide_eq_true hok)
    (.mysemOpen true ⟨true, true, 1⟩ :: .mysemOpen false ⟨false, false, 0⟩ ::
      (List.replicate 8 (.sysCall true false) ++ List.replicate 5 (.sysCall false false) ++
        [.mysemOp true .wait, .sysCall true false, .mysemOp true .wait]))
    (fun s => decide ((s.caller true).pc = .wait ∧ (s.caller false).pc = .ready none))
    (by decide +kernel)
  obtain ⟨hwait, hready⟩ := of_decide_eq_true hcheck
  obtain ⟨-, hall⟩ := fifo_semaphore_counts hs
  obtain ⟨f, hsem, -⟩ := (hall false).2.2.1 _ hready
  exact ⟨s, hs, hwait, (hall true).2.2.2.1 hwait, none, f, hready, hsem⟩

end DdsAuto.MyPxsemFifo
