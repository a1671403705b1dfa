import DdsAuto.Lib.CString
import DdsAuto.Lib.Mutex
import DdsAuto.Lib.Threads
import DdsAuto.Lib.Tickets
import DdsAuto.Lib.Words
import DdsAuto.UnixLib.Readline
import Mathlib.Algebra.BigOperators.Group.Finset.Piecewise

/-!
# Processes that share a sequence number in a file

Each process of `lockmain` reads the number in `SEQFILE`, prints it and writes the
next one back, twenty times, with a write lock on the file. The text is not cut off
behind the number it writes, but ends in a newline. A process may be killed at any point; the
kernel then gives up its lock.

A step is one system call with what the process does by itself before the next one.
The calls do not fail, a `read` or `write` of the file is complete, and each process has
an offset of its own.
-/

namespace DdsAuto.Lock

open Lts Function Threads CInt CString UnixLib

-- ---------------------------------------------------------------------------
-- The number in the file
-- ---------------------------------------------------------------------------

/-- `sscanf(line, "%ld\n", &seqno)`; without a number `seqno` stays as it is. -/
def sscanf (line : List UInt8) (seqno : Int) : Int :=
  let number := match line.dropWhile isSpace with
    | 45 :: bs => bs
    | 43 :: bs => bs
    | bs => bs
  if number.head?.any isDigit then atol line else seqno

/-- `read` at an offset of the file. -/
def readAt (file : List UInt8) (offset nbytes : Nat) : List UInt8 := (file.drop offset).take nbytes

/-- `write` at an offset no further than the end of the file. -/
def writeAt (file : List UInt8) (offset : Nat) (text : List UInt8) : List UInt8 :=
  file.take offset ++ text ++ file.drop (offset + text.length)

-- ---------------------------------------------------------------------------
-- The processes
-- ---------------------------------------------------------------------------

/-- Where a process is: before the call named. -/
inductive Pc
  | my_lock
  | lseekRead
  | read
  | printf
  | lseekWrite
  | write
  | my_unlock
  | exited
  deriving DecidableEq, Repr

structure Process where
  pc : Pc
  alive : Bool
  i : Nat
  offset : Nat
  seqno : Int

/-- `owner` has the write lock; `printed` is what the processes print, in order. -/
structure State (P : Type) where
  owner : Option P
  file : List UInt8
  process : P → Process
  printed : List (P × Int)

inductive Label (P : Type)
  | run (p : P)
  | kill (p : P)
  deriving DecidableEq, Repr

/-- The passes of the loop. -/
def loops : Nat := 20

section
variable {P : Type} [DecidableEq P]

def State.set (s : State P) (p : P) (c : Process) : State P :=
  { s with process := update s.process p c }

/-- A living process goes on. `seqno++` past the largest `long` has no step. -/
def run (s : State P) (p : P) : Option (State P) :=
  let c := s.process p
  if c.alive then
    match c.pc with
    | .my_lock =>
      if s.owner = none then some ({ s with owner := some p }.set p { c with pc := .lseekRead })
      else none
    | .lseekRead => some (s.set p { c with pc := .read, offset := 0 })
    | .read =>
      let line := readAt s.file c.offset MAXLINE
      some (s.set p { c with
        pc := .printf, offset := c.offset + line.length, seqno := sscanf (cstr line) c.seqno })
    | .printf =>
      if IsLong (c.seqno + 1) then
        some ({ s with printed := s.printed ++ [(p, c.seqno)] }.set p
          { c with pc := .lseekWrite, seqno := c.seqno + 1 })
      else none
    | .lseekWrite => some (s.set p { c with pc := .write, offset := 0 })
    | .write =>
      let line := longText c.seqno ++ [10]
      some ({ s with file := writeAt s.file c.offset line }.set p
        { c with pc := .my_unlock, offset := c.offset + line.length })
    | .my_unlock =>
      some ({ s with owner := if s.owner = some p then none else s.owner }.set p
        { c with pc := if c.i + 1 < loops then .my_lock else .exited, i := c.i + 1 })
    | .exited => none
  else none

/-- The kernel gives up the lock of a process that dies. -/
def kill (s : State P) (p : P) : Option (State P) :=
  let c := s.process p
  if c.alive ∧ c.pc ≠ .exited then
    some ({ s with owner := if s.owner = some p then none else s.owner }.set p
      { c with alive := false })
  else none

def step (s : State P) : Label P → Option (State P)
  | .run p => run s p
  | .kill p => kill s p

/-- `seqno` is not initialised: `junk` is what the process finds there. -/
def system (file : List UInt8) (junk : P → Int) : Lts (State P) (Label P) where
  init := ⟨none, file, fun p => ⟨.my_lock, true, 0, 0, junk p⟩, []⟩
  step := step

end

def State.numbers {P : Type} (s : State P) : List Int := s.printed.map (·.2)

-- ---------------------------------------------------------------------------
-- Reading the number back
-- ---------------------------------------------------------------------------

/-- The text begins with the number, and no further digit. -/
def Starts (text : List UInt8) (x : Int) : Prop :=
  ∃ rest, text = longText x ++ rest ∧ ∀ b ∈ rest.head?, isDigit b = false

section
variable {text file : List UInt8} {x y : Int}

theorem sscanf_cons {b : UInt8} (hb : isDigit b = true) (bs : List UInt8) (seqno : Int) :
    sscanf (b :: bs) seqno = atol (b :: bs) := by
  obtain ⟨hspace, hminus, hplus⟩ := of_isDigit hb
  rw [sscanf, List.dropWhile_cons_of_neg (by simp [hspace])]
  split
  · rename_i heq
    cases heq
    exact absurd rfl hminus
  · rename_i heq
    cases heq
    exact absurd rfl hplus
  · rw [List.head?_cons, Option.any_some, hb]
    rfl

theorem Starts.sscanf (h : Starts text x) (seqno : Int) : sscanf text seqno = x := by
  obtain ⟨rest, rfl, hrest⟩ := h
  have hval := atol_longText hrest x
  cases x with
  | ofNat n =>
    obtain ⟨b, bs, hb, hdec⟩ := decimal_eq_cons n
    rw [longText, hdec, List.cons_append] at hval ⊢
    rw [sscanf_cons hb, hval]
  | negSucc n =>
    obtain ⟨b, bs, hb, hdec⟩ := decimal_eq_cons (n + 1)
    rw [longText, hdec, List.cons_append, List.cons_append] at hval ⊢
    have hminus : Lock.sscanf (45 :: b :: (bs ++ rest)) seqno =
        if isDigit b then atol (45 :: b :: (bs ++ rest)) else seqno := rfl
    rw [hminus, if_pos hb, hval]

theorem length_longText_le (h : IsLong x) : (longText x).length ≤ 20 := by
  have hdec (n : Nat) (hn : n < 10000000000000000000) : (decimal n).length ≤ 19 := by
    rw [decimal, List.length_map]
    exact (Nat.length_toDigits_le_iff (by decide) (by decide)).mpr hn
  unfold IsLong at h
  cases x with
  | ofNat n =>
    rw [Int.ofNat_eq_natCast] at h
    have := hdec n (by omega)
    rw [longText]
    omega
  | negSucc n =>
    have := hdec (n + 1) (by omega)
    rw [longText, List.length_cons]
    omega

theorem zero_notMem_longText (x : Int) : 0 ∉ longText x := by
  have hdec (n : Nat) : 0 ∉ decimal n := fun h => by
    have := isDigit_of_mem_decimal h
    simp [isDigit] at this
  cases x with
  | ofNat n => exact hdec n
  | negSucc n => simp [longText, hdec]

/-- The bytes of a `read` as a string, up to its first NUL. -/
theorem Starts.read (h : Starts file x) (hx : IsLong x) :
    Starts (cstr (readAt file 0 MAXLINE)) x := by
  obtain ⟨rest, rfl, hrest⟩ := h
  have hlen := length_longText_le hx
  have hmax : MAXLINE = 4096 := rfl
  refine ⟨cstr (rest.take (MAXLINE - (longText x).length)), ?_, fun b hb => hrest b ?_⟩
  · rw [readAt, List.drop_zero, List.take_append, List.take_of_length_le (by omega), cstr, cstr,
      List.takeWhile_append_of_pos (ne_of_notMem (zero_notMem_longText x))]
  · have hpre : cstr (rest.take (MAXLINE - (longText x).length)) <+: rest :=
      (List.takeWhile_prefix _).trans (List.take_prefix _ _)
    obtain ⟨tail, hb⟩ := List.head?_eq_some_iff.mp (Option.mem_def.mp hb)
    rw [hb] at hpre
    obtain ⟨after, rfl⟩ := hpre
    rfl

/-- The newline ends the number, whatever is left of the text behind it. -/
theorem starts_write (file : List UInt8) (x : Int) :
    Starts (writeAt file 0 (longText x ++ [10])) x := by
  refine ⟨10 :: file.drop (longText x ++ [10]).length, ?_, ?_⟩
  · simp [writeAt]
  · rintro b ⟨⟩
    rfl

end

-- ---------------------------------------------------------------------------
-- The numbers are tickets
-- ---------------------------------------------------------------------------

/-- The process has the lock. -/
def Process.Locked (c : Process) : Prop :=
  c.alive = true ∧ c.pc ≠ .my_lock ∧ c.pc ≠ .exited

/-- It has printed the number and not written the next one. -/
def Pc.Unwritten (pc : Pc) : Prop := pc = .lseekWrite ∨ pc = .write

instance (pc : Pc) : Decidable pc.Unwritten := by unfold Pc.Unwritten; infer_instance

/-- The numbers it has printed. -/
def Process.count (c : Process) : Nat :=
  c.i + if c.pc.Unwritten ∨ c.pc = .my_unlock then 1 else 0

/-- One that has died before it wrote the number back. -/
def Process.lost (c : Process) : Nat := if c.alive = false ∧ c.pc.Unwritten then 1 else 0

/-- What a process knows when the number in the file is `x`. -/
def PointOk (x : Int) (c : Process) : Prop :=
  match c.pc with
  | .my_lock | .lseekRead | .my_unlock => c.i < loops
  | .read => c.i < loops ∧ c.offset = 0
  | .printf => c.i < loops ∧ (c.alive = true → c.seqno = x)
  | .lseekWrite => c.i < loops ∧ (c.alive = true → c.seqno = x + 1)
  | .write => c.i < loops ∧ c.offset = 0 ∧ (c.alive = true → c.seqno = x + 1)
  | .exited => c.i = loops

structure Rel {P : Type} [Fintype P] [DecidableEq P] (start : Int) (s : State P)
    (r : Tickets.State P) : Prop where
  printed : s.printed = r.drawn.map fun d => (d.1, start + d.2)
  file : Starts s.file (start + r.next)
  owner : Mutex.Owned s.owner fun p => (s.process p).Locked
  holder : Mutex.Owned r.holder fun p => (s.process p).alive = true ∧ (s.process p).pc.Unwritten
  points : ∀ p, PointOk (start + r.next) (s.process p)
  count : ∀ p, s.printed.countP (·.1 = p) = (s.process p).count
  length : s.printed.length = total Process.count s.process
  lost : r.lost = total Process.lost s.process

section
variable {P : Type} [Fintype P] [DecidableEq P] {start : Int} {s s' : State P}
variable {r r' : Tickets.State P} {p : P} {a : Label P} {c : Process} {x y : Int}

/-- The number matters to the process with the lock. -/
theorem PointOk.other (h : PointOk x c) (hfree : ¬ c.Locked) : PointOk y c := by
  obtain ⟨pc, alive, i, offset, seqno⟩ := c
  cases alive with
  | false => cases pc <;> simp [PointOk] at h ⊢ <;> exact h
  | true =>
    cases pc <;> simp [Process.Locked] at hfree
    · exact h
    · exact h

/-- `p` goes on to `c`, and prints what `added` says. -/
theorem Rel.go (h : Rel start s r) {added : List (P × Int)}
    (hprocess : s'.process = update s.process p c)
    (hprinted : s'.printed = s.printed ++ added)
    (hdrawn : s'.printed = r'.drawn.map fun d => (d.1, start + d.2))
    (hadded : ∀ e ∈ added, e.1 = p) (hcount : c.count = (s.process p).count + added.length)
    (hfile : Starts s'.file (start + r'.next))
    (howner : Mutex.Owned s'.owner fun q => (s'.process q).Locked)
    (hholder : Mutex.Owned r'.holder fun q =>
      (s'.process q).alive = true ∧ (s'.process q).pc.Unwritten)
    (hnext : r'.next = r.next ∨ (s.process p).Locked) (hpoint : PointOk (start + r'.next) c)
    (hlost : r'.lost + (s.process p).lost = r.lost + c.lost) : Rel start s' r' where
  printed := hdrawn
  file := hfile
  owner := howner
  holder := hholder
  points q := by
    rw [hprocess]
    by_cases hq : q = p
    · subst hq
      rwa [update_self]
    · rw [update_of_ne hq]
      rcases hnext with hsame | hp
      · rw [hsame]
        exact h.points q
      · exact (h.points q).other fun hin => hq (h.owner.unique hin hp)
  count q := by
    rw [hprinted, hprocess, List.countP_append, h.count q]
    by_cases hq : q = p
    · subst hq
      rw [update_self, hcount, List.countP_eq_length.mpr fun e he => decide_eq_true (hadded e he)]
    · have hnone : added.countP (·.1 = q) = 0 :=
        List.countP_eq_zero.mpr fun e he hd => hq ((of_decide_eq_true hd).symm.trans (hadded e he))
      rw [update_of_ne hq, hnone, Nat.add_zero]
  length := by
    have htotal := total_update Process.count s.process p c
    rw [hprinted, hprocess, List.length_append, h.length]
    omega
  lost := by
    have htotal := total_update Process.lost s.process p c
    have hold := h.lost
    rw [hprocess]
    omega

/-- A step that prints nothing and leaves the file alone. -/
theorem Rel.move (h : Rel start s r) {owner : Option P}
    (howner : Mutex.Owned owner fun q => (update s.process p c q).Locked)
    (hunwritten : c.alive = true ∧ c.pc.Unwritten ↔
      (s.process p).alive = true ∧ (s.process p).pc.Unwritten)
    (hpoint : PointOk (start + r.next) c) (hcount : c.count = (s.process p).count)
    (hlost : c.lost = (s.process p).lost) : Rel start ({ s with owner }.set p c) r :=
  h.go rfl (List.append_nil _).symm h.printed (fun _ he => absurd he List.not_mem_nil) hcount h.file
    howner (h.holder.keep_update (fun c : Process => c.alive = true ∧ c.pc.Unwritten)
      hunwritten)
    (.inl rfl) hpoint (by rw [hlost])

theorem PointOk.count_le (h : PointOk x c) : c.count ≤ loops := by
  obtain ⟨pc, alive, i, offset, seqno⟩ := c
  cases pc <;> simp [PointOk, Process.count, Pc.Unwritten] at h ⊢ <;> omega

/-- No process prints more than its share. -/
theorem Rel.length_le (h : Rel start s r) : s.printed.length ≤ loops * Fintype.card P := by
  have hall : total Process.count s.process ≤ Fintype.card P * loops :=
    Finset.sum_le_card_nsmul _ _ _ fun p _ => (h.points p).count_le
  rw [h.length, Nat.mul_comm]
  exact hall

theorem Rel.next_le (h : Rel start s r) (hr : Tickets.Inv r) : r.next ≤ s.printed.length := by
  have hlen := hr.length
  rw [h.printed, List.length_map, ← List.length_map (f := (·.2)), ← Tickets.State.numbers]
  omega

/-- Whoever is at `printf` draws the number. -/
theorem Rel.draw (h : Rel start s r) (halive : (s.process p).alive = true)
    (hpc : (s.process p).pc = .printf) : r.holder = none ∧
    Rel start ({ s with printed := s.printed ++ [(p, (s.process p).seqno)] }.set p
      { s.process p with pc := .lseekWrite, seqno := (s.process p).seqno + 1 })
      { r with holder := some p, drawn := r.drawn ++ [(p, r.next)] } := by
  have hpoint := h.points p
  simp only [PointOk, hpc] at hpoint
  obtain ⟨hi, hseqno⟩ := hpoint
  have hin : (s.process p).Locked := ⟨halive, by simp [hpc], by simp [hpc]⟩
  have hfree : r.holder = none := by
    cases hheld : r.holder with
    | none => rfl
    | some q =>
      obtain ⟨hq, hun⟩ := (h.holder q).mp hheld
      have hqin : (s.process q).Locked := ⟨hq, by rintro heq; simp [heq, Pc.Unwritten] at hun,
        by rintro heq; simp [heq, Pc.Unwritten] at hun⟩
      rw [h.owner.unique hqin hin, hpc] at hun
      simp [Pc.Unwritten] at hun
  have hnone := h.holder
  rw [hfree] at hnone
  refine ⟨hfree, h.go rfl rfl ?_ (by simp) ?_ h.file ?_ ?_ (.inl rfl) ⟨hi, fun ha => ?_⟩ ?_⟩
  · rw [List.map_append, ← h.printed, hseqno halive]
    rfl
  · simp [Process.count, Pc.Unwritten, hpc]
  · exact h.owner.keep_update Process.Locked ⟨fun _ => hin, fun _ => ⟨halive, by simp, by simp⟩⟩
  · exact hnone.acquire_update (fun c : Process => c.alive = true ∧ c.pc.Unwritten)
      ⟨halive, by simp [Pc.Unwritten]⟩
  · rw [hseqno halive]
  · simp [Process.lost, halive]

/-- Whoever is at `write` puts the next number. -/
theorem Rel.put (h : Rel start s r) (halive : (s.process p).alive = true)
    (hpc : (s.process p).pc = .write) : r.holder = some p ∧
    Rel start ({ s with
      file := writeAt s.file (s.process p).offset (longText (s.process p).seqno ++ [10]) }.set p
      { s.process p with
        pc := .my_unlock
        offset := (s.process p).offset + (longText (s.process p).seqno ++ [10]).length })
      { r with holder := none, next := r.next + 1 } := by
  have hpoint := h.points p
  simp only [PointOk, hpc] at hpoint
  obtain ⟨hi, hoffset, hseqno⟩ := hpoint
  have hin : (s.process p).Locked := ⟨halive, by simp [hpc], by simp [hpc]⟩
  have hun : (s.process p).alive = true ∧ (s.process p).pc.Unwritten := ⟨halive, .inr hpc⟩
  refine ⟨(h.holder p).mpr hun, h.go rfl (List.append_nil _).symm h.printed
    (fun _ he => absurd he List.not_mem_nil) ?_ ?_ ?_ ?_ (.inr hin) hi ?_⟩
  · simp [Process.count, Pc.Unwritten, hpc]
  · rw [hoffset, hseqno halive]
    have hnext : start + (r.next + 1 : Nat) = start + r.next + 1 := by omega
    show Starts (writeAt s.file 0 (longText (start + r.next + 1) ++ [10])) (start + (r.next + 1 : Nat))
    rw [hnext]
    exact starts_write ..
  · exact h.owner.keep_update Process.Locked ⟨fun _ => hin, fun _ => ⟨halive, by simp, by simp⟩⟩
  · exact h.holder.release_update (fun c : Process => c.alive = true ∧ c.pc.Unwritten) hun
      (by simp [Pc.Unwritten])
  · simp [Process.lost, halive]

theorem rel_run (hlow : IsLong start) (hmax : IsLong (start + (loops * Fintype.card P : Nat)))
    (h : Rel start s r) (hr : Tickets.Inv r) (hstep : run s p = some s') :
    ∃ r', (Tickets.system P).Follows anyStep r r' ∧ Rel start s' r' := by
  have hpoint := h.points p
  obtain ⟨halive, hstep⟩ := Option.ite_none_right_eq_some.mp hstep
  have hkeep {c : Process} (hc : c.Locked) (hin : (s.process p).Locked) :
      Mutex.Owned s.owner fun q => (update s.process p c q).Locked :=
    h.owner.keep_update Process.Locked ⟨fun _ => hin, fun _ => hc⟩
  cases hpc : (s.process p).pc <;> simp only [hpc] at hstep <;> simp only [PointOk, hpc] at hpoint
  case my_lock =>
    simp only [Option.ite_none_right_eq_some, Option.some.injEq] at hstep
    obtain ⟨hfree, rfl⟩ := hstep
    have hnone := h.owner
    rw [hfree] at hnone
    refine ⟨r, .refl .., h.move ?_ ?_ hpoint ?_ ?_⟩
    · exact hnone.acquire_update Process.Locked ⟨halive, by simp, by simp⟩
    all_goals simp [Process.count, Process.lost, Pc.Unwritten, hpc]
  case lseekRead =>
    cases hstep
    have hin : (s.process p).Locked := ⟨halive, by simp [hpc], by simp [hpc]⟩
    refine ⟨r, .refl .., h.move (hkeep ⟨halive, by simp, by simp⟩ hin) ?_ ⟨hpoint, rfl⟩ ?_ ?_⟩
    all_goals simp [Process.count, Process.lost, Pc.Unwritten, hpc]
  case read =>
    cases hstep
    have hin : (s.process p).Locked := ⟨halive, by simp [hpc], by simp [hpc]⟩
    have hlong : IsLong (start + r.next) := by
      have hnext := h.next_le hr
      have hlen := h.length_le
      unfold IsLong at hlow hmax ⊢
      omega
    refine ⟨r, .refl .., h.move (hkeep ⟨halive, by simp, by simp⟩ hin) ?_
      ⟨hpoint.1, fun _ => ?_⟩ ?_ ?_⟩
    · simp [Pc.Unwritten, hpc]
    · rw [hpoint.2]
      exact (h.file.read hlong).sscanf _
    all_goals simp [Process.count, Process.lost, Pc.Unwritten, hpc]
  case printf =>
    simp only [Option.ite_none_right_eq_some, Option.some.injEq] at hstep
    obtain ⟨-, rfl⟩ := hstep
    obtain ⟨hfree, hrel⟩ := h.draw halive hpc
    exact ⟨_, .of_step (.draw p) trivial (if_pos hfree), hrel⟩
  case lseekWrite =>
    cases hstep
    have hin : (s.process p).Locked := ⟨halive, by simp [hpc], by simp [hpc]⟩
    refine ⟨r, .refl .., h.move (hkeep ⟨halive, by simp, by simp⟩ hin) ?_ ⟨hpoint.1, rfl, hpoint.2⟩
      ?_ ?_⟩
    all_goals simp [Process.count, Process.lost, Pc.Unwritten, hpc]
  case write =>
    cases hstep
    obtain ⟨hheld, hrel⟩ := h.put halive hpc
    exact ⟨_, .of_step (.put p) trivial (if_pos hheld), hrel⟩
  case my_unlock =>
    cases hstep
    have hin : (s.process p).Locked := ⟨halive, by simp [hpc], by simp [hpc]⟩
    rw [if_pos ((h.owner p).mpr hin)]
    refine ⟨r, .refl .., h.move (h.owner.release_update Process.Locked hin ?_) ?_ ?_ ?_ ?_⟩
    · split <;> simp [Process.Locked]
    · split <;> simp [Pc.Unwritten, hpc]
    · split
      · assumption
      · exact Nat.le_antisymm hpoint (Nat.not_lt.mp ‹_›)
    · split <;> simp [Process.count, Pc.Unwritten, hpc]
    · split <;> simp [Process.lost, Pc.Unwritten, hpc]
  case exited => cases hstep

theorem rel_kill (h : Rel start s r) (hstep : kill s p = some s') :
    ∃ r', (Tickets.system P).Follows anyStep r r' ∧ Rel start s' r' := by
  simp only [kill, Option.ite_none_right_eq_some, Option.some.injEq] at hstep
  obtain ⟨⟨halive, hexit⟩, rfl⟩ := hstep
  have hpoint := h.points p
  have hdead : PointOk (start + r.next) { s.process p with alive := false } := by
    cases hpc : (s.process p).pc <;> simp only [PointOk, hpc] at hpoint ⊢ <;> simp_all
  have howner : Mutex.Owned (if s.owner = some p then none else s.owner)
      fun q => (update s.process p { s.process p with alive := false } q).Locked := by
    by_cases hin : (s.process p).Locked
    · rw [if_pos ((h.owner p).mpr hin)]
      exact h.owner.release_update Process.Locked hin (by simp [Process.Locked])
    · rw [if_neg fun ho => hin ((h.owner p).mp ho)]
      exact h.owner.keep_update Process.Locked
        ⟨fun hl => absurd hl.1 (by simp), fun hl => absurd hl hin⟩
  by_cases hun : (s.process p).pc.Unwritten
  · refine ⟨{ r with holder := none, lost := r.lost + 1 },
      .of_step (.lose p) trivial (if_pos ((h.holder p).mpr ⟨halive, hun⟩)), ?_⟩
    refine h.go rfl (List.append_nil _).symm h.printed (fun _ he => absurd he List.not_mem_nil) rfl
      h.file howner ?_ (.inl rfl) hdead ?_
    · exact h.holder.release_update (fun c : Process => c.alive = true ∧ c.pc.Unwritten)
        ⟨halive, hun⟩ (by simp)
    · simp [Process.lost, halive, hun]
  · refine ⟨r, .refl .., h.move howner ?_ hdead rfl ?_⟩
    · simp [hun]
    · simp [Process.lost, hun]

theorem rel_of_reachable {file : List UInt8} {junk : P → Int} (hfile : Starts file start)
    (hlow : IsLong start) (hmax : IsLong (start + (loops * Fintype.card P : Nat)))
    (h : (system file junk).Reachable anyStep s) :
    ∃ r, (Tickets.system P).Reachable anyStep r ∧ Rel start s r := by
  refine h.simulate (R := Rel start) ⟨rfl, ?_, ?_, ?_, fun _ => show 0 < loops by decide, ?_,
    ?_, ?_⟩ ?_
  · simpa [system, Tickets.system] using hfile
  · exact fun p => ⟨nofun, fun hl => absurd rfl hl.2.1⟩
  · exact fun p => ⟨nofun, fun hl => absurd hl.2 (by simp [system, Pc.Unwritten])⟩
  · exact fun p => rfl
  · exact (total_eq_zero fun p => rfl).symm
  · exact (total_eq_zero fun p => by simp [system, Process.lost]).symm
  · rintro s a s' r hrel hr - hstep
    cases a with
    | run p => exact rel_run hlow hmax hrel (Tickets.inv_of_reachable hr) hstep
    | kill p => exact rel_kill hrel hstep

/-- Where nobody can go on, nobody is left. -/
theorem exited_of_stuck (hmax : IsLong (start + (loops * Fintype.card P : Nat))) (hlow : IsLong start)
    (h : Rel start s r) (hr : Tickets.Inv r) (hstuck : ∀ p, run s p = none) (p : P)
    (halive : (s.process p).alive = true) : (s.process p).pc = .exited := by
  have hprintf (q : P) (hq : (s.process q).alive = true) (hpc : (s.process q).pc = .printf) :
      False := by
    obtain ⟨hfree, hrel⟩ := h.draw hq hpc
    have hnext := h.next_le hr
    have hlen := hrel.length_le
    have hpoint := h.points q
    simp only [PointOk, hpc] at hpoint
    have hlong : IsLong ((s.process q).seqno + 1) := by
      simp only [State.set, List.length_append, List.length_singleton] at hlen
      rw [hpoint.2 hq]
      unfold IsLong at hlow hmax ⊢
      omega
    have := hstuck q
    simp only [run, if_pos hq, hpc, if_pos hlong] at this
    cases this
  have hmove (q : P) (hq : (s.process q).alive = true) :
      (s.process q).pc = .exited ∨ (s.process q).pc = .my_lock ∧ s.owner ≠ none := by
    have hstep := hstuck q
    cases hpc : (s.process q).pc <;> simp only [run, if_pos hq, hpc] at hstep
    case exited => exact .inl rfl
    case my_lock =>
      refine .inr ⟨rfl, fun hfree => ?_⟩
      rw [if_pos hfree] at hstep
      cases hstep
    case printf => exact (hprintf q hq hpc).elim
    all_goals cases hstep
  rcases hmove p halive with hexit | ⟨hpc, howned⟩
  · exact hexit
  · obtain ⟨q, hq⟩ := Option.ne_none_iff_exists'.mp howned
    obtain ⟨hqalive, hnolock, hnoexit⟩ := (h.owner q).mp hq
    rcases hmove q hqalive with hexit | ⟨hlock, -⟩
    · exact absurd hexit hnoexit
    · exact absurd hlock hnolock

-- ---------------------------------------------------------------------------
-- Runs end
-- ---------------------------------------------------------------------------

/-- The steps of a pass that lie behind. -/
def Pc.done : Pc → Nat
  | .my_lock | .exited => 0
  | .lseekRead => 1
  | .read => 2
  | .printf => 3
  | .lseekWrite => 4
  | .write => 5
  | .my_unlock => 6

/-- The steps a process has left. -/
def Process.left (c : Process) : Nat := if c.alive then 7 * (loops - c.i) - c.pc.done else 0

omit [Fintype P] in
theorem left_step (hpoints : ∀ p, PointOk x (s.process p))
    (hstep : step s a = some s') : ∃ p c, s'.process = update s.process p c ∧
      c.left < (s.process p).left := by
  cases a with
  | kill p =>
    simp only [step, kill, Option.ite_none_right_eq_some, Option.some.injEq] at hstep
    obtain ⟨⟨halive, hexit⟩, rfl⟩ := hstep
    refine ⟨p, _, rfl, ?_⟩
    have h := hpoints p
    cases hpc : (s.process p).pc <;> simp only [PointOk, hpc] at h <;>
      simp [Process.left, halive, hpc, Pc.done] <;> first | omega | exact absurd hpc hexit
  | run p =>
    obtain ⟨halive, hstep⟩ := Option.ite_none_right_eq_some.mp hstep
    have h := hpoints p
    cases hpc : (s.process p).pc <;> simp only [hpc] at hstep <;> simp only [PointOk, hpc] at h
    case my_lock =>
      simp only [Option.ite_none_right_eq_some, Option.some.injEq] at hstep
      obtain ⟨-, rfl⟩ := hstep
      refine ⟨p, _, rfl, ?_⟩
      simp [Process.left, halive, hpc, Pc.done]
      omega
    case printf =>
      simp only [Option.ite_none_right_eq_some, Option.some.injEq] at hstep
      obtain ⟨-, rfl⟩ := hstep
      refine ⟨p, _, rfl, ?_⟩
      simp [Process.left, halive, hpc, Pc.done]
      omega
    case my_unlock =>
      cases hstep
      refine ⟨p, _, rfl, ?_⟩
      simp only [Process.left, halive, hpc, if_true]
      split <;> simp only [Pc.done] <;> omega
    case exited => cases hstep
    all_goals
      cases hstep
      refine ⟨p, _, rfl, ?_⟩
      simp [Process.left, halive, hpc, Pc.done]
      omega

theorem length_run {file : List UInt8} {junk : P → Int} (hlow : IsLong start)
    (hmax : IsLong (start + (loops * Fintype.card P : Nat))) (hfile : Starts file start)
    (hrun : (system file junk).exec (system file junk).init as = some s) :
    as.length ≤ 7 * loops * Fintype.card P := by
  have hstep (s : State P) (a : Label P) (s' : State P) (h : (system file junk).Reachable anyStep s)
      (hstep : (system file junk).step s a = some s') :
      total Process.left s'.process < total Process.left s.process := by
    obtain ⟨r, -, hrel⟩ := rel_of_reachable hfile hlow hmax h
    obtain ⟨p, c, hprocess, hlt⟩ := left_step hrel.points hstep
    have htotal := total_update Process.left s.process p c
    rw [hprocess]
    omega
  have hle := length_le_of_measure (μ := fun s : State P => total Process.left s.process)
    (P := fun s => (system file junk).Reachable anyStep s) hstep
    (fun _ _ _ h hstep => h.step trivial hstep) .init hrun
  have hall : total Process.left (system file junk).init.process = Fintype.card P * (7 * loops) := by
    exact Finset.sum_const_nat fun _ _ => rfl
  rw [hall, Nat.mul_comm] at hle
  exact Nat.le_of_add_right_le hle

-- ---------------------------------------------------------------------------
-- The sequence numbers
-- ---------------------------------------------------------------------------

/-- Who has printed a number, and not written the next one. -/
theorem card_unwritten (h : Rel start s r) (hr : Tickets.Inv r) :
    s.printed.length = r.next + (Finset.univ.filter fun p => (s.process p).pc.Unwritten).card := by
  have hlen := hr.length
  have hheld : (Finset.univ.filter fun p => (s.process p).alive = true ∧
      (s.process p).pc.Unwritten) = r.holder.toFinset := by
    ext p
    rw [Finset.mem_filter_univ, Option.mem_toFinset, Option.mem_def]
    exact (h.holder p).symm
  have hsplit : (Finset.univ.filter fun p => (s.process p).pc.Unwritten).card =
      r.lost + (Finset.univ.filter fun p => (s.process p).alive = true ∧
        (s.process p).pc.Unwritten).card := by
    rw [h.lost, total, Finset.card_filter, Finset.card_filter, ← Finset.sum_add_distrib]
    refine Finset.sum_congr rfl fun p _ => ?_
    cases halive : (s.process p).alive <;> simp [Process.lost, halive]
  rw [hsplit, hheld, Option.card_toFinset, h.printed, List.length_map,
    ← List.length_map (f := (·.2)), ← Tickets.State.numbers, hlen, Nat.add_assoc]
  cases r.holder <;> rfl

/-- In every run, with processes killed anywhere: the numbers printed go up without a
gap from the one the file began with, and the file has the one after those written back. A
number is printed once, and once more for each process that printed it and has not written the
next one; where nobody is killed the numbers are all different. The run ends, and then every
process that is left has printed its twenty. -/
theorem lockmain_numbers {file : List UInt8} {junk : P → Int} (hfile : Starts file start)
    (hlow : IsLong start) (hmax : IsLong (start + (loops * Fintype.card P : Nat)))
    (hrun : (system file junk).exec (system file junk).init as = some s) :
    (∃ written : Nat, Starts s.file (start + written) ∧ s.numbers.Pairwise (· ≤ ·) ∧
      (∀ x ∈ s.numbers, start ≤ x ∧ x ≤ start + written) ∧
      (∀ k < written, start + (k : Nat) ∈ s.numbers) ∧
      s.printed.length =
        written + (Finset.univ.filter fun p => (s.process p).pc.Unwritten).card) ∧
    ((∀ p, (s.process p).alive = true) →
      s.numbers = (List.range s.printed.length).map fun k => start + (k : Nat)) ∧
    as.length ≤ 7 * loops * Fintype.card P ∧
    ((∀ p, run s p = none) → ∀ p, (s.process p).alive = true →
      (s.process p).pc = .exited ∧ s.printed.countP (·.1 = p) = loops) := by
  have h : (system file junk).Reachable anyStep s := Reachable.init.exec hrun
  obtain ⟨r, hr, hrel⟩ := rel_of_reachable hfile hlow hmax h
  have hinv := Tickets.inv_of_reachable hr
  have hnumbers : s.numbers = r.numbers.map fun k => start + (k : Nat) := by
    rw [State.numbers, hrel.printed, Tickets.State.numbers, List.map_map, List.map_map]
    rfl
  have hlen : s.printed.length = r.numbers.length := by
    rw [hrel.printed, List.length_map, Tickets.State.numbers, List.length_map]
  refine ⟨⟨r.next, hrel.file, ?_, ?_, ?_, card_unwritten hrel hinv⟩, fun halive => ?_,
    length_run hlow hmax hfile hrun, fun hstuck p halive => ?_⟩
  · rw [hnumbers, List.pairwise_map]
    exact hinv.sorted.imp fun hle => by omega
  · intro x hx
    rw [hnumbers] at hx
    obtain ⟨k, hk, rfl⟩ := List.mem_map.mp hx
    have := hinv.le k hk
    omega
  · intro k hk
    rw [hnumbers]
    exact List.mem_map_of_mem (hinv.all k hk)
  · have hlost : r.lost = 0 := by
      rw [hrel.lost]
      exact total_eq_zero fun p => by simp [Process.lost, halive p]
    rw [hnumbers, hlen, ← hinv.exact hlost]
  · have hexit := exited_of_stuck hmax hlow hrel hinv hstuck p halive
    have hpoint := hrel.points p
    simp only [PointOk, hexit] at hpoint
    refine ⟨hexit, ?_⟩
    rw [hrel.count p, Process.count, hpoint, hexit]
    rfl

/-- Two processes on a file with 9 in it; the first one is killed before its `write`. -/
theorem lockmain_numbers_killed : ∃ s as, (system [57, 10] fun _ : Bool => 0).exec
      (system [57, 10] fun _ : Bool => 0).init as = some s ∧ s.numbers = [9, 9] ∧
    s.file = [49, 48, 10] ∧ ∃ written : Nat, Starts s.file (9 + written) := by
  let as : List (Label Bool) :=
    List.replicate 5 (.run true) ++ .kill true :: List.replicate 7 (.run false)
  have hsome : ((system [57, 10] fun _ : Bool => 0).exec
      (system [57, 10] fun _ : Bool => 0).init as).any
      (fun s => s.numbers == [9, 9] && s.file == [49, 48, 10]) = true := by decide +kernel
  obtain ⟨s, hrun, hcheck⟩ := (Option.any_eq_true _ _).mp hsome
  rw [Bool.and_eq_true, beq_iff_eq, beq_iff_eq] at hcheck
  have hfile : Starts [57, 10] 9 := by
    refine ⟨[10], by decide, fun b hb => ?_⟩
    cases hb
    rfl
  obtain ⟨⟨written, hstarts, -⟩, -⟩ := lockmain_numbers hfile (by decide) (by decide) hrun
  exact ⟨s, as, hrun, hcheck.1, hcheck.2, written, hstarts⟩

end

end DdsAuto.Lock
