import DdsAuto.Lib.Lts
import DdsAuto.Lib.Ring
import Mathlib.Data.List.Basic

/-!
# `mycat2`: a reader and a writer with several buffers

`produce` reads the file into the slots of a ring and `consume` writes them out.
The critical sections are empty: what keeps the two threads off each other's
slot are the semaphores `nempty` and `nstored` and the index each keeps for
itself. The slot whose count is 0 ends the writer; the reader keeps it, so
`nempty` stays one short from there on.
-/

namespace DdsAuto.Pxsem.Mycat2

open Function Lts

def NBUFF : Nat := 8

def BUFFSIZE : Nat := 8192

/-- One of `shared.buff`. -/
structure Buff where
  data : List UInt8
  n : Nat
  deriving DecidableEq, Repr

structure Shared where
  buff : Fin NBUFF → Buff
  mutex : Nat
  nempty : Nat
  nstored : Nat

/-- Where `produce` is: before the operation named. `count n` is the assignment of
what `Read` has returned; `postLast` the post before the return. -/
inductive ProducePc
  | waitEmpty
  | waitMutex
  | postMutex
  | fill
  | count (n : Nat)
  | test
  | postLast
  | postStored
  | returned
  deriving DecidableEq, Repr

inductive ConsumePc
  | waitStored
  | waitMutex
  | postMutex
  | test
  | write
  | postEmpty
  | returned
  deriving DecidableEq, Repr

/-- A thread and its index `i`. -/
structure Thread (pc : Type) where
  pc : pc
  i : Fin NBUFF

/-- `rest` is what is left to read of the file. -/
structure State where
  shared : Shared
  rest : List UInt8
  output : List UInt8
  producer : Thread ProducePc
  consumer : Thread ConsumePc

/-- `read n`: the call of `Read` returns `n`. -/
inductive Label
  | read (n : Nat)
  | produce
  | consume
  deriving DecidableEq, Repr

/-- `if (++i >= NBUFF) i = 0`. -/
def advance (i : Fin NBUFF) : Fin NBUFF :=
  if h : i.val + 1 ≥ NBUFF then ⟨0, by decide⟩ else ⟨i.val + 1, Nat.lt_of_not_ge h⟩

/-- What `read` may return: some of the bytes left, and 0 at the end of the file. -/
def Returns (rest : List UInt8) (n : Nat) : Prop :=
  n ≤ BUFFSIZE ∧ n ≤ rest.length ∧ (n = 0 → rest = [])

instance (rest : List UInt8) (n : Nat) : Decidable (Returns rest n) := by
  unfold Returns
  infer_instance

/-- `Read` stores the bytes at the start of the slot. -/
def fill (n : Nat) (s : State) : Option State :=
  match s.producer.pc with
  | .fill =>
    if Returns s.rest n then
      let b := s.shared.buff s.producer.i
      let b' := { b with data := s.rest.take n ++ b.data.drop n }
      some { s with
        shared.buff := update s.shared.buff s.producer.i b'
        rest := s.rest.drop n
        producer.pc := .count n }
    else none
  | _ => none

/-- The next step of `produce`; `none` where it is blocked, in `Read`, or has returned. -/
def produce (s : State) : Option State :=
  let i := s.producer.i
  match s.producer.pc with
  | .waitEmpty =>
    if 0 < s.shared.nempty then
      some { s with shared.nempty := s.shared.nempty - 1, producer.pc := .waitMutex }
    else none
  | .waitMutex =>
    if 0 < s.shared.mutex then
      some { s with shared.mutex := s.shared.mutex - 1, producer.pc := .postMutex }
    else none
  | .postMutex => some { s with shared.mutex := s.shared.mutex + 1, producer.pc := .fill }
  | .count n =>
    let b' := { s.shared.buff i with n := n }
    some { s with shared.buff := update s.shared.buff i b', producer.pc := .test }
  | .test =>
    if (s.shared.buff i).n = 0 then some { s with producer.pc := .postLast }
    else some { s with producer := ⟨.postStored, advance i⟩ }
  | .postLast => some { s with shared.nstored := s.shared.nstored + 1, producer.pc := .returned }
  | .postStored => some { s with shared.nstored := s.shared.nstored + 1, producer.pc := .waitEmpty }
  | .fill | .returned => none

/-- The bytes of a slot that `Write` is given. -/
def Buff.content (b : Buff) : List UInt8 := b.data.take b.n

/-- The next step of `consume`. -/
def consume (s : State) : Option State :=
  let i := s.consumer.i
  match s.consumer.pc with
  | .waitStored =>
    if 0 < s.shared.nstored then
      some { s with shared.nstored := s.shared.nstored - 1, consumer.pc := .waitMutex }
    else none
  | .waitMutex =>
    if 0 < s.shared.mutex then
      some { s with shared.mutex := s.shared.mutex - 1, consumer.pc := .postMutex }
    else none
  | .postMutex => some { s with shared.mutex := s.shared.mutex + 1, consumer.pc := .test }
  | .test =>
    if (s.shared.buff i).n = 0 then some { s with consumer.pc := .returned }
    else some { s with consumer.pc := .write }
  | .write =>
    some { s with
      output := s.output ++ (s.shared.buff i).content
      consumer := ⟨.postEmpty, advance i⟩ }
  | .postEmpty => some { s with shared.nempty := s.shared.nempty + 1, consumer.pc := .waitStored }
  | .returned => none

def step (s : State) : Label → Option State
  | .read n => fill n s
  | .produce => produce s
  | .consume => consume s

/-- The two threads and a file. -/
def system (file : List UInt8) : Lts State Label where
  init := {
    shared := ⟨fun _ => ⟨List.replicate BUFFSIZE 0, 0⟩, 1, NBUFF, 0⟩
    rest := file
    output := []
    producer := ⟨.waitEmpty, ⟨0, by decide⟩⟩
    consumer := ⟨.waitStored, ⟨0, by decide⟩⟩ }
  step := step

/-- Both threads have returned. -/
def State.AllReturned (s : State) : Prop := s.producer.pc = .returned ∧ s.consumer.pc = .returned

/-- The reader is in `Read` with the slot, or about to set its count. -/
def State.Filling (s : State) (i : Fin NBUFF) : Prop :=
  s.producer.i = i ∧ (s.producer.pc = .fill ∨ ∃ n, s.producer.pc = .count n)

/-- The writer is about to test the slot's count, or in `Write` with it. -/
def State.Draining (s : State) (i : Fin NBUFF) : Prop :=
  s.consumer.i = i ∧ (s.consumer.pc = .test ∨ s.consumer.pc = .write)

-- ---------------------------------------------------------------------------
-- The accounts
-- ---------------------------------------------------------------------------

def ProducePc.inside : ProducePc → Nat
  | .postMutex => 1
  | _ => 0

/-- It has taken `nempty` and not moved on from the slot. -/
def ProducePc.holdsEmpty : ProducePc → Nat
  | .waitEmpty | .postStored => 0
  | _ => 1

/-- It is about to post `nstored`. -/
def ProducePc.owesStored : ProducePc → Nat
  | .postLast | .postStored => 1
  | _ => 0

/-- It has set a count to 0. -/
def ProducePc.last : ProducePc → Nat
  | .postLast | .returned => 1
  | _ => 0

def ConsumePc.inside : ConsumePc → Nat
  | .postMutex => 1
  | _ => 0

/-- It has taken `nstored` and not moved on from the slot. -/
def ConsumePc.holdsStored : ConsumePc → Nat
  | .waitStored | .postEmpty => 0
  | _ => 1

def ConsumePc.owesEmpty : ConsumePc → Nat
  | .postEmpty => 1
  | _ => 0

/-- The slot of turn `k`. -/
def slot (k : Nat) : Fin NBUFF := ⟨k % NBUFF, Nat.mod_lt _ (by decide)⟩

/-- What the slots of the turns from `j` on hold, `n` of them. -/
def contents (buff : Fin NBUFF → Buff) (j n : Nat) : List UInt8 :=
  (List.range' j n).flatMap fun t => (buff (slot t)).content

/-- Read and in no counted slot. -/
def pending (b : Buff) : ProducePc → List UInt8
  | .count n => b.data.take n
  | .test => b.content
  | _ => []

/-- What the reader knows of its slot. -/
def ProduceOk (b : Buff) (rest : List UInt8) : ProducePc → Prop
  | .count n => n = 0 → rest = []
  | .test => b.n = 0 → rest = []
  | .postLast | .returned => b.n = 0 ∧ rest = []
  | _ => True

/-- What the writer knows of its slot. -/
def ConsumeOk (b : Buff) : ConsumePc → Prop
  | .write => b.n ≠ 0
  | .returned => b.n = 0
  | _ => True

/-- The writer is at turn `j` and the reader `n` turns ahead. -/
structure Inv (file : List UInt8) (j n : Nat) (s : State) : Prop where
  writer : s.consumer.i = slot j
  reader : s.producer.i = slot (j + n)
  mutex : s.shared.mutex + s.producer.pc.inside + s.consumer.pc.inside = 1
  empty : s.shared.nempty + s.producer.pc.holdsEmpty + n + s.consumer.pc.owesEmpty = NBUFF
  stored : s.shared.nstored + s.producer.pc.owesStored + s.consumer.pc.holdsStored =
    n + s.producer.pc.last
  counted : ∀ t, j ≤ t → t < j + n → (s.shared.buff (slot t)).n ≠ 0
  produceOk : ProduceOk (s.shared.buff (slot (j + n))) s.rest s.producer.pc
  consumeOk : ConsumeOk (s.shared.buff (slot j)) s.consumer.pc
  file : s.output ++ contents s.shared.buff j n ++
    pending (s.shared.buff (slot (j + n))) s.producer.pc ++ s.rest = file

variable {file : List UInt8} {s s' : State} {j n k : Nat}

-- ---------------------------------------------------------------------------
-- Slots
-- ---------------------------------------------------------------------------

theorem advance_slot (k : Nat) : advance (slot k) = slot (k + 1) := by
  have hwrap : (if k % NBUFF + 1 ≥ NBUFF then 0 else k % NBUFF + 1) = (k + 1) % NBUFF :=
    Ring.wrap_succ (by decide) k
  apply Fin.ext
  show (advance (slot k)).val = (k + 1) % NBUFF
  rw [← hwrap]
  unfold advance
  by_cases hend : k % NBUFF + 1 ≥ NBUFF
  · rw [dif_pos (show (slot k).val + 1 ≥ NBUFF from hend), if_pos hend]
  · rw [dif_neg (show ¬ (slot k).val + 1 ≥ NBUFF from hend), if_neg hend]
    rfl

theorem slot_ne (hlt : j < k) (hround : k < j + NBUFF) : slot j ≠ slot k := by
  intro h
  exact Ring.mod_ne hlt hround (Fin.val_eq_of_eq h)

theorem contents_succ (buff : Fin NBUFF → Buff) (j n : Nat) :
    contents buff j (n + 1) = contents buff j n ++ (buff (slot (j + n))).content := by
  simp [contents, List.range'_1_concat]

theorem contents_cons (buff : Fin NBUFF → Buff) (j n : Nat) :
    contents buff j (n + 1) = (buff (slot j)).content ++ contents buff (j + 1) n := by
  simp [contents, List.range'_succ]

/-- The turn after the counted ones has a slot of its own. -/
theorem contents_update (buff : Fin NBUFF → Buff) (b : Buff) (hroom : n < NBUFF) :
    contents (update buff (slot (j + n)) b) j n = contents buff j n := by
  refine List.flatMap_congr fun t ht => ?_
  obtain ⟨hle, hlt⟩ := List.mem_range'_1.mp ht
  rw [update_of_ne (slot_ne hlt (by omega))]

theorem slot_ne_of_holds (h : Inv file j n s) (hnew : s.producer.pc.last = 0)
    (hc : s.consumer.pc.holdsStored = 1) (hp : s.producer.pc.holdsEmpty = 1) :
    slot j ≠ slot (j + n) := by
  have hstored := h.stored
  have hempty := h.empty
  exact slot_ne (by omega) (by omega)

/-- While the reader fills a slot, the writer has another one. -/
theorem Inv.exclusive (h : Inv file j n s) (i : Fin NBUFF) (hp : s.Filling i) :
    ¬ s.Draining i := by
  rintro ⟨hci, hc⟩
  obtain ⟨hpi, hp⟩ := hp
  refine slot_ne_of_holds h ?_ ?_ ?_ ?_
  · rcases hp with hp | ⟨m, hp⟩ <;> rw [hp] <;> rfl
  · rcases hc with hc | hc <;> rw [hc] <;> rfl
  · rcases hp with hp | ⟨m, hp⟩ <;> rw [hp] <;> rfl
  · rw [← h.writer, ← h.reader, hci, hpi]

-- ---------------------------------------------------------------------------
-- The steps of the reader
-- ---------------------------------------------------------------------------

/-- A step of the reader at a semaphore: what it adds it no longer holds, or owes. -/
theorem Inv.produceSem (h : Inv file j n s) (pc : ProducePc) (m e st : Nat)
    (hm : m + pc.inside = s.shared.mutex + s.producer.pc.inside)
    (he : e + pc.holdsEmpty = s.shared.nempty + s.producer.pc.holdsEmpty)
    (hst : st + pc.owesStored + s.producer.pc.last =
      s.shared.nstored + s.producer.pc.owesStored + pc.last)
    (hok : ProduceOk (s.shared.buff (slot (j + n))) s.rest pc)
    (hpending : pending (s.shared.buff (slot (j + n))) pc =
      pending (s.shared.buff (slot (j + n))) s.producer.pc) :
    Inv file j n { s with
      shared := { s.shared with mutex := m, nempty := e, nstored := st }
      producer.pc := pc } where
  writer := h.writer
  reader := h.reader
  mutex := by
    have hold := h.mutex
    show m + pc.inside + s.consumer.pc.inside = 1
    omega
  empty := by
    have hold := h.empty
    show e + pc.holdsEmpty + n + s.consumer.pc.owesEmpty = NBUFF
    omega
  stored := by
    have hold := h.stored
    show st + pc.owesStored + s.consumer.pc.holdsStored = n + pc.last
    omega
  counted := h.counted
  produceOk := hok
  consumeOk := h.consumeOk
  file := by
    have hold := h.file
    rw [← hpending] at hold
    exact hold

/-- The reader writes to its own slot: `b'` is the slot after that. -/
theorem Inv.produceBuff (h : Inv file j n s) (b' : Buff) (rest : List UInt8) (pc : ProducePc)
    (hheld : s.producer.pc.holdsEmpty = 1) (hnew : s.producer.pc.last = 0)
    (hsame : pc.inside = s.producer.pc.inside ∧ pc.holdsEmpty = s.producer.pc.holdsEmpty ∧
      pc.owesStored = s.producer.pc.owesStored ∧ pc.last = s.producer.pc.last)
    (hok : ProduceOk b' rest pc)
    (hrest : pending b' pc ++ rest =
      pending (s.shared.buff (slot (j + n))) s.producer.pc ++ s.rest) :
    Inv file j n { s with
      shared.buff := update s.shared.buff s.producer.i b'
      rest := rest
      producer.pc := pc } := by
  obtain ⟨hinside, hempty, howes, hlast⟩ := hsame
  have hroom : n < NBUFF := by
    have hold := h.empty
    omega
  rw [h.reader]
  refine ⟨h.writer, h.reader, ?_, ?_, ?_, fun t hle hlt => ?_, ?_, ?_, ?_⟩
  · have hold := h.mutex
    rw [← hinside] at hold
    exact hold
  · have hold := h.empty
    rw [← hempty] at hold
    exact hold
  · have hold := h.stored
    rw [← howes, ← hlast] at hold
    exact hold
  · show (update s.shared.buff (slot (j + n)) b' (slot t)).n ≠ 0
    rw [update_of_ne (slot_ne hlt (by omega))]
    exact h.counted t hle hlt
  · show ProduceOk (update s.shared.buff (slot (j + n)) b' (slot (j + n))) rest pc
    rwa [update_self]
  · -- The writer knows something of its slot only while it holds it.
    show ConsumeOk (update s.shared.buff (slot (j + n)) b' (slot j)) s.consumer.pc
    have hold := h.consumeOk
    cases hc : s.consumer.pc with
    | write | returned =>
      rw [update_of_ne (slot_ne_of_holds h hnew (by rw [hc]; rfl) hheld), ← hc]
      exact hold
    | _ => trivial
  · show s.output ++ contents (update s.shared.buff (slot (j + n)) b') j n ++
      pending (update s.shared.buff (slot (j + n)) b' (slot (j + n))) pc ++ rest = file
    rw [contents_update _ _ hroom, update_self, ← h.file, List.append_assoc _ _ rest, hrest,
      List.append_assoc _ _ s.rest]

theorem inv_fill (h : Inv file j n s) (hstep : fill k s = some s') : Inv file j n s' := by
  unfold fill at hstep
  cases hp : s.producer.pc with
  | fill =>
    simp only [hp, Option.ite_none_right_eq_some, Option.some.injEq] at hstep
    obtain ⟨⟨hmax, hlen, hend⟩, rfl⟩ := hstep
    refine h.produceBuff _ _ (.count k) (by rw [hp]; rfl) (by rw [hp]; rfl) (by rw [hp]; trivial)
      (fun hzero => ?_) ?_
    · rw [hend hzero]
      exact List.drop_nil
    · have htake : (s.rest.take k ++ (s.shared.buff s.producer.i).data.drop k).take k =
          s.rest.take k := by
        rw [List.take_append_of_le_length (Nat.le_of_eq (List.length_take_of_le hlen).symm),
          List.take_take, Nat.min_self]
      show (s.rest.take k ++ (s.shared.buff s.producer.i).data.drop k).take k ++ s.rest.drop k =
        pending _ _ ++ s.rest
      rw [htake, List.take_append_drop, hp]
      rfl
  | _ =>
    simp only [hp] at hstep
    cases hstep

/-- The slot just filled is counted with the others. -/
theorem Inv.produceNext (h : Inv file j n s) (hp : s.producer.pc = .test)
    (hne : (s.shared.buff s.producer.i).n ≠ 0) :
    Inv file j (n + 1) { s with producer := ⟨.postStored, advance s.producer.i⟩ } where
  writer := h.writer
  reader := by
    show advance s.producer.i = slot (j + n + 1)
    rw [h.reader, advance_slot]
  mutex := by
    have hold := h.mutex
    rw [hp] at hold
    exact hold
  empty := by
    have hold := h.empty
    rw [hp] at hold
    show s.shared.nempty + 0 + (n + 1) + s.consumer.pc.owesEmpty = NBUFF
    simp only [ProducePc.holdsEmpty] at hold
    omega
  stored := by
    have hold := h.stored
    rw [hp] at hold
    show s.shared.nstored + 1 + s.consumer.pc.holdsStored = n + 1 + 0
    simp only [ProducePc.owesStored, ProducePc.last] at hold
    omega
  counted t hle hlt := by
    rcases Nat.lt_succ_iff_lt_or_eq.mp (show t < (j + n) + 1 from hlt) with hlt | rfl
    · exact h.counted t hle hlt
    · rw [← h.reader]
      exact hne
  produceOk := trivial
  consumeOk := h.consumeOk
  file := by
    have hold := h.file
    rw [hp] at hold
    show s.output ++ contents s.shared.buff j (n + 1) ++ [] ++ s.rest = file
    rw [contents_succ, List.append_nil, ← List.append_assoc]
    exact hold

theorem inv_produce (h : Inv file j n s) (hstep : produce s = some s') :
    ∃ n', Inv file j n' s' := by
  have hok := h.produceOk
  unfold produce at hstep
  cases hp : s.producer.pc with
  | waitEmpty =>
    simp only [hp, Option.ite_none_right_eq_some, Option.some.injEq] at hstep
    obtain ⟨hpos, rfl⟩ := hstep
    exact ⟨n, h.produceSem .waitMutex _ _ _ (by rw [hp]; rfl)
      (by rw [hp]; exact Nat.sub_add_cancel hpos) (by rw [hp]; rfl) trivial (by rw [hp]; rfl)⟩
  | waitMutex =>
    simp only [hp, Option.ite_none_right_eq_some, Option.some.injEq] at hstep
    obtain ⟨hpos, rfl⟩ := hstep
    exact ⟨n, h.produceSem .postMutex _ _ _ (by rw [hp]; exact Nat.sub_add_cancel hpos)
      (by rw [hp]; rfl) (by rw [hp]; rfl) trivial (by rw [hp]; rfl)⟩
  | postMutex =>
    simp only [hp, Option.some.injEq] at hstep
    subst hstep
    exact ⟨n, h.produceSem .fill _ _ _ (by rw [hp]; rfl) (by rw [hp]; rfl) (by rw [hp]; rfl)
      trivial (by rw [hp]; rfl)⟩
  | count m =>
    simp only [hp, Option.some.injEq] at hstep
    subst hstep
    rw [hp] at hok
    refine ⟨n, h.produceBuff _ s.rest .test (by rw [hp]; rfl) (by rw [hp]; rfl)
      (by rw [hp]; trivial) hok ?_⟩
    rw [hp, h.reader]
    rfl
  | test =>
    simp only [hp] at hstep
    rw [hp, ← h.reader] at hok
    split at hstep
    · rename_i hzero
      cases hstep
      refine ⟨n, h.produceSem .postLast _ _ _ (by rw [hp]; rfl) (by rw [hp]; rfl) (by rw [hp]; rfl)
        ⟨by rw [← h.reader]; exact hzero, hok hzero⟩ ?_⟩
      rw [hp, ← h.reader]
      show [] = (s.shared.buff s.producer.i).data.take (s.shared.buff s.producer.i).n
      rw [hzero, List.take_zero]
    · rename_i hne
      cases hstep
      exact ⟨n + 1, h.produceNext hp hne⟩
  | postLast =>
    simp only [hp, Option.some.injEq] at hstep
    subst hstep
    rw [hp] at hok
    exact ⟨n, h.produceSem .returned _ _ _ (by rw [hp]; rfl) (by rw [hp]; rfl) (by rw [hp]; rfl)
      hok (by rw [hp]; rfl)⟩
  | postStored =>
    simp only [hp, Option.some.injEq] at hstep
    subst hstep
    exact ⟨n, h.produceSem .waitEmpty _ _ _ (by rw [hp]; rfl) (by rw [hp]; rfl) (by rw [hp]; rfl)
      trivial (by rw [hp]; rfl)⟩
  | fill | returned =>
    simp only [hp] at hstep
    cases hstep

-- ---------------------------------------------------------------------------
-- The steps of the writer
-- ---------------------------------------------------------------------------

/-- The same for a step of the writer that leaves its slot as it is. -/
theorem Inv.consumeSem (h : Inv file j n s) (pc : ConsumePc) (m e st : Nat)
    (hm : m + pc.inside = s.shared.mutex + s.consumer.pc.inside)
    (he : e + pc.owesEmpty = s.shared.nempty + s.consumer.pc.owesEmpty)
    (hst : st + pc.holdsStored = s.shared.nstored + s.consumer.pc.holdsStored)
    (hok : ConsumeOk (s.shared.buff (slot j)) pc) :
    Inv file j n { s with
      shared := { s.shared with mutex := m, nempty := e, nstored := st }
      consumer.pc := pc } where
  writer := h.writer
  reader := h.reader
  mutex := by
    have hold := h.mutex
    show m + s.producer.pc.inside + pc.inside = 1
    omega
  empty := by
    have hold := h.empty
    show e + s.producer.pc.holdsEmpty + n + pc.owesEmpty = NBUFF
    omega
  stored := by
    have hold := h.stored
    show st + s.producer.pc.owesStored + pc.holdsStored = n + s.producer.pc.last
    omega
  counted := h.counted
  produceOk := h.produceOk
  consumeOk := hok
  file := h.file

theorem ProducePc.last_cases (pc : ProducePc) :
    pc.last = 0 ∨ pc.last = 1 ∧ (pc = .postLast ∨ pc = .returned) := by
  cases pc with
  | postLast => exact .inr ⟨rfl, .inl rfl⟩
  | returned => exact .inr ⟨rfl, .inr rfl⟩
  | _ => exact .inl rfl

/-- The reader has ended with its slot at count 0. -/
theorem Inv.last (h : Inv file j n s) (hlast : s.producer.pc.last = 1) :
    (s.shared.buff (slot (j + n))).n = 0 ∧ s.rest = [] := by
  have hok := h.produceOk
  rcases s.producer.pc.last_cases with hzero | ⟨-, hp | hp⟩
  · rw [hzero] at hlast
    cases hlast
  · rw [hp] at hok
    exact hok
  · rw [hp] at hok
    exact hok

/-- A slot with bytes that the writer has come to is one of the counted ones. -/
theorem Inv.exists_counted (h : Inv file j n s) (hheld : s.consumer.pc.holdsStored = 1)
    (hne : (s.shared.buff (slot j)).n ≠ 0) : ∃ n', n = n' + 1 := by
  have hstored := h.stored
  rcases s.producer.pc.last_cases with hzero | ⟨hone, -⟩
  · exact Nat.exists_eq_add_one_of_ne_zero (by omega)
  · refine Nat.exists_eq_add_one_of_ne_zero fun hn => hne ?_
    have hlast := (h.last hone).1
    rwa [hn] at hlast

/-- The first counted slot goes to the output. -/
theorem Inv.write (h : Inv file j (n + 1) s) (hc : s.consumer.pc = .write) :
    Inv file (j + 1) n { s with
      output := s.output ++ (s.shared.buff s.consumer.i).content
      consumer := ⟨.postEmpty, advance s.consumer.i⟩ } := by
  have hnext : j + (n + 1) = j + 1 + n := by omega
  have hreader := h.reader
  have hok := h.produceOk
  have hfile := h.file
  rw [hnext] at hreader hok hfile
  refine ⟨?_, hreader, ?_, ?_, ?_, fun t hle hlt => ?_, hok, trivial, ?_⟩
  · show advance s.consumer.i = slot (j + 1)
    rw [h.writer, advance_slot]
  · have hold := h.mutex
    rw [hc] at hold
    exact hold
  · have hold := h.empty
    rw [hc] at hold
    show s.shared.nempty + s.producer.pc.holdsEmpty + n + 1 = NBUFF
    exact hold
  · have hold := h.stored
    rw [hc] at hold
    show s.shared.nstored + s.producer.pc.owesStored + 0 = n + s.producer.pc.last
    simp only [ConsumePc.holdsStored] at hold
    omega
  · exact h.counted t (Nat.le_of_succ_le hle) (by omega)
  · show s.output ++ (s.shared.buff s.consumer.i).content ++ contents s.shared.buff (j + 1) n ++
      pending (s.shared.buff (slot (j + 1 + n))) s.producer.pc ++ s.rest = file
    rw [← hfile, contents_cons, h.writer, List.append_assoc s.output]

theorem inv_consume (h : Inv file j n s) (hstep : consume s = some s') :
    ∃ j' n', Inv file j' n' s' := by
  unfold consume at hstep
  cases hc : s.consumer.pc with
  | waitStored =>
    simp only [hc, Option.ite_none_right_eq_some, Option.some.injEq] at hstep
    obtain ⟨hpos, rfl⟩ := hstep
    exact ⟨j, n, h.consumeSem .waitMutex _ _ _ (by rw [hc]; rfl) (by rw [hc]; rfl)
      (by rw [hc]; exact Nat.sub_add_cancel hpos) trivial⟩
  | waitMutex =>
    simp only [hc, Option.ite_none_right_eq_some, Option.some.injEq] at hstep
    obtain ⟨hpos, rfl⟩ := hstep
    exact ⟨j, n, h.consumeSem .postMutex _ _ _ (by rw [hc]; exact Nat.sub_add_cancel hpos)
      (by rw [hc]; rfl) (by rw [hc]; rfl) trivial⟩
  | postMutex =>
    simp only [hc, Option.some.injEq] at hstep
    subst hstep
    exact ⟨j, n, h.consumeSem .test _ _ _ (by rw [hc]; rfl) (by rw [hc]; rfl) (by rw [hc]; rfl)
      trivial⟩
  | test =>
    simp only [hc] at hstep
    split at hstep
    · rename_i hzero
      cases hstep
      exact ⟨j, n, h.consumeSem .returned _ _ _ (by rw [hc]; rfl) (by rw [hc]; rfl)
        (by rw [hc]; rfl) (by rw [← h.writer]; exact hzero)⟩
    · rename_i hne
      cases hstep
      exact ⟨j, n, h.consumeSem .write _ _ _ (by rw [hc]; rfl) (by rw [hc]; rfl) (by rw [hc]; rfl)
        (by rw [← h.writer]; exact hne)⟩
  | write =>
    simp only [hc, Option.some.injEq] at hstep
    subst hstep
    have hok := h.consumeOk
    rw [hc] at hok
    obtain ⟨n', rfl⟩ := h.exists_counted (by rw [hc]; rfl) hok
    exact ⟨j + 1, n', h.write hc⟩
  | postEmpty =>
    simp only [hc, Option.some.injEq] at hstep
    subst hstep
    exact ⟨j, n, h.consumeSem .waitStored _ _ _ (by rw [hc]; rfl) (by rw [hc]; rfl)
      (by rw [hc]; rfl) trivial⟩
  | returned =>
    simp only [hc] at hstep
    cases hstep

theorem inv_init (file : List UInt8) : Inv file 0 0 (system file).init where
  writer := rfl
  reader := rfl
  mutex := rfl
  empty := rfl
  stored := rfl
  counted t _ hlt := absurd hlt (Nat.not_lt_zero t)
  produceOk := trivial
  consumeOk := trivial
  file := rfl

theorem reachable_inv (h : (system file).Reachable anyStep s) : ∃ j n, Inv file j n s := by
  refine h.invariant (P := fun s => ∃ j n, Inv file j n s) ⟨0, 0, inv_init file⟩ ?_
  rintro s a s' ⟨j, n, hinv⟩ - hstep
  cases a with
  | read k => exact ⟨j, n, inv_fill hinv hstep⟩
  | produce => exact ⟨j, inv_produce hinv hstep⟩
  | consume => exact inv_consume hinv hstep

-- ---------------------------------------------------------------------------
-- No deadlock
-- ---------------------------------------------------------------------------

/-- No thread can move, whatever `Read` returns. -/
def State.Stuck (s : State) : Prop := ∀ a, step s a = none

/-- The critical sections are empty, so nothing is stuck there. -/
theorem Inv.mutex_of_stuck (h : Inv file j n s) (hstuck : s.Stuck) : 0 < s.shared.mutex := by
  have hold := h.mutex
  have hp : s.producer.pc.inside = 0 := by
    cases hp : s.producer.pc with
    | postMutex =>
      have hnone := hstuck .produce
      simp [step, produce, hp] at hnone
    | _ => rfl
  have hc : s.consumer.pc.inside = 0 := by
    cases hc : s.consumer.pc with
    | postMutex =>
      have hnone := hstuck .consume
      simp [step, consume, hc] at hnone
    | _ => rfl
  omega

/-- Some result of `Read` is always possible. -/
theorem exists_returns (rest : List UInt8) : ∃ k, Returns rest k := by
  cases rest with
  | nil => exact ⟨0, Nat.zero_le _, Nat.zero_le _, fun _ => rfl⟩
  | cons b rest => exact ⟨1, by decide, Nat.succ_le_succ (Nat.zero_le _), nofun⟩

theorem Inv.producer_of_stuck (h : Inv file j n s) (hstuck : s.Stuck) :
    s.producer.pc = .returned ∨ s.producer.pc = .waitEmpty ∧ s.shared.nempty = 0 := by
  have hmutex := h.mutex_of_stuck hstuck
  have hnone : produce s = none := hstuck .produce
  unfold produce at hnone
  cases hp : s.producer.pc with
  | returned => exact .inl rfl
  | waitEmpty =>
    simp only [hp] at hnone
    exact .inr ⟨rfl, Nat.eq_zero_of_not_pos fun hpos => by simp [hpos] at hnone⟩
  | waitMutex => simp [hp, hmutex] at hnone
  | fill =>
    obtain ⟨k, hk⟩ := exists_returns s.rest
    have hread : fill k s = none := hstuck (.read k)
    simp [fill, hp, hk] at hread
  | test => by_cases hzero : (s.shared.buff s.producer.i).n = 0 <;> simp [hp, hzero] at hnone
  | _ => simp [hp] at hnone

theorem Inv.consumer_of_stuck (h : Inv file j n s) (hstuck : s.Stuck) :
    s.consumer.pc = .returned ∨ s.consumer.pc = .waitStored ∧ s.shared.nstored = 0 := by
  have hmutex := h.mutex_of_stuck hstuck
  have hnone : consume s = none := hstuck .consume
  unfold consume at hnone
  cases hc : s.consumer.pc with
  | returned => exact .inl rfl
  | waitStored =>
    simp only [hc] at hnone
    exact .inr ⟨rfl, Nat.eq_zero_of_not_pos fun hpos => by simp [hpos] at hnone⟩
  | waitMutex => simp [hc, hmutex] at hnone
  | test => by_cases hzero : (s.shared.buff s.consumer.i).n = 0 <;> simp [hc, hzero] at hnone
  | _ => simp [hc] at hnone

/-- A writer that has returned has come to the reader's last slot. -/
theorem Inv.ended (h : Inv file j n s) (hc : s.consumer.pc = .returned) :
    n = 0 ∧ s.producer.pc = .returned := by
  have hok := h.consumeOk
  rw [hc] at hok
  have hn : n = 0 := by
    by_contra hne
    exact h.counted j (Nat.le_refl j) (by omega) hok
  have hstored := h.stored
  rw [hc, hn] at hstored
  refine ⟨hn, ?_⟩
  rcases s.producer.pc.last_cases with hzero | ⟨-, hp | hp⟩
  · simp only [hzero, ConsumePc.holdsStored] at hstored
    omega
  · simp only [hp, ProducePc.owesStored, ProducePc.last, ConsumePc.holdsStored] at hstored
    omega
  · exact hp

theorem Inv.not_stuck (h : Inv file j n s) (hret : ¬ s.AllReturned) : ∃ a s', step s a = some s' := by
  by_contra hnone
  have hstuck : s.Stuck := by
    intro a
    by_contra hsome
    obtain ⟨s', hs'⟩ := Option.ne_none_iff_exists'.mp hsome
    exact hnone ⟨a, s', hs'⟩
  rcases h.consumer_of_stuck hstuck with hc | ⟨hc, hzero⟩
  · exact hret ⟨(h.ended hc).2, hc⟩
  · have hempty := h.empty
    have hstored := h.stored
    rw [hc] at hempty hstored
    rcases h.producer_of_stuck hstuck with hp | ⟨hp, hfull⟩
    · -- The reader has posted its last slot.
      rw [hp, hzero] at hstored
      simp only [ProducePc.owesStored, ProducePc.last, ConsumePc.holdsStored] at hstored
      omega
    · -- The slots cannot be all full and all empty.
      rw [hp, hzero] at hstored
      rw [hp, hfull] at hempty
      simp only [ProducePc.owesStored, ProducePc.last, ConsumePc.holdsStored] at hstored
      have hnone : n = 0 := by omega
      rw [hnone] at hempty
      cases hempty

-- ---------------------------------------------------------------------------
-- The copy
-- ---------------------------------------------------------------------------

/-- What a state of a copy of `file` satisfies. -/
structure Correct (file : List UInt8) (s : State) : Prop where
  inOrder : s.output <+: file
  complete : s.AllReturned → s.output = file
  exclusive : ∀ i, s.Filling i → ¬ s.Draining i
  noDeadlock : ¬ s.AllReturned → ∃ a s', step s a = some s'

theorem copy_correct (file : List UInt8) (s : State) (h : (system file).Reachable anyStep s) :
    Correct file s := by
  obtain ⟨j, n, hinv⟩ := reachable_inv h
  have hfile := hinv.file
  refine ⟨?_, ?_, hinv.exclusive, hinv.not_stuck⟩
  · rw [List.append_assoc, List.append_assoc] at hfile
    exact ⟨_, hfile⟩
  · rintro ⟨hp, hc⟩
    obtain ⟨hn, -⟩ := hinv.ended hc
    have hrest := (hinv.last (by rw [hp]; rfl)).2
    rw [hp, hn, hrest, List.append_nil] at hfile
    simpa [contents, pending] using hfile

/-- Three bytes in two reads; the writer has written the first two. -/
theorem copy_correct_three : ∃ s, (system [97, 98, 99]).Reachable anyStep s ∧
    s.output = [97, 98] ∧ Correct [97, 98, 99] s := by
  obtain ⟨s, hs, hend⟩ := reachable_of_exec (system [97, 98, 99])
    ([.produce, .produce, .produce, .read 2, .produce, .produce, .produce] ++
      List.replicate 5 .consume)
    (fun s => decide (s.output = [97, 98])) (by decide +kernel)
  exact ⟨s, hs, of_decide_eq_true hend, copy_correct [97, 98, 99] s hs⟩

end DdsAuto.Pxsem.Mycat2
