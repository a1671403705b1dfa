import DdsAuto.Lib.CString
import DdsAuto.Lib.Lts

/-!
# Two processes and a message slot

`comp_anonymous_condA` puts `NumMsg` messages into one slot in shared memory, and
`comp_anonymous_condB` logs them until it finds the last one. Each waits on a condition at most
once: it tests `message_in` with `if`, and after `wait` it goes on without a second test.

So all depends on the returns from `wait`. A return is checked when `message_in` is then as the
process wants it. Every message but the last is logged once, in order, in exactly the runs whose
returns are all checked; the runs without a spurious return are among them. In all runs the
log goes through the messages in order, and both processes come to their ends.
-/

namespace DdsAuto.Interprocess.Cond

open Lts CString

-- ---------------------------------------------------------------------------
-- The messages
-- ---------------------------------------------------------------------------

/-- "last message". -/
def lastMessage : List UInt8 := [108, 97, 115, 116, 32, 109, 101, 115, 115, 97, 103, 101]

/-- `"%s_%d"` of "My_SharedMemory_Message" and `i`. -/
def sharedMemoryMessage (i : Nat) : List UInt8 :=
  [77, 121, 95, 83, 104, 97, 114, 101, 100, 77, 101, 109, 111, 114, 121, 95, 77, 101, 115, 115, 97, 103,
    101, 95] ++ decimal i

/-- What A puts into `items` in pass `i`. -/
def message (numMsg i : Nat) : List UInt8 :=
  if i = numMsg - 1 then lastMessage else sharedMemoryMessage i

/-- What is in the slot after `k` messages; the memory holds zeros at first. -/
def published (numMsg : Nat) : Nat → List UInt8
  | 0 => []
  | k + 1 => message numMsg k

theorem message_eq_last {numMsg i : Nat} : message numMsg i = lastMessage ↔ i = numMsg - 1 := by
  rw [message]
  split
  · simp [*]
  · simp [*, sharedMemoryMessage, lastMessage]

/-- The number of messages sent when the text was the last of them. -/
def number (text : List UInt8) : Nat :=
  match text with
  | [] => 0
  | _ => (atol (text.drop 24)).toNat + 1

theorem number_message {numMsg i : Nat} (h : i < numMsg - 1) : number (message numMsg i) = i + 1 := by
  have hdrop : (sharedMemoryMessage i).drop 24 = decimal i := rfl
  have hnumber :
      number (sharedMemoryMessage i) = (atol ((sharedMemoryMessage i).drop 24)).toNat + 1 := rfl
  rw [message, if_neg (Nat.ne_of_lt h), hnumber, hdrop, atol_decimal, Int.toNat_natCast]

theorem number_published {numMsg k : Nat} (h : k < numMsg) : number (published numMsg k) = k := by
  cases k with
  | zero => rfl
  | succ k => exact number_message (Nat.lt_sub_of_add_lt h)

theorem published_eq_last {numMsg k : Nat} (hpos : 0 < numMsg) :
    published numMsg k = lastMessage ↔ k = numMsg := by
  cases k with
  | zero => simp [published, lastMessage, Nat.ne_of_lt hpos]
  | succ k =>
    rw [published, message_eq_last]
    omega

-- ---------------------------------------------------------------------------
-- The processes
-- ---------------------------------------------------------------------------

inductive Process
  | a
  | b
  deriving DecidableEq, Repr

/-- Where A is: before the operation named. `asleep` it is in `cond_full.wait`, `woken` it has to
take the mutex again before it goes on. -/
inductive PcA
  | lock
  | test
  | asleep
  | woken
  | sprintf
  | notify
  | setIn
  | unlock
  | exited
  deriving DecidableEq, Repr

/-- Where B is; it waits in `cond_empty.wait`. `unlockEnd` is the unlock after the last message. -/
inductive PcB
  | lock
  | test
  | asleep
  | woken
  | strcmp
  | log
  | clearIn
  | notify
  | unlock
  | unlockEnd
  | exited
  deriving DecidableEq, Repr

/-- `items` is the string in the slot, `received` what B has logged. -/
structure State where
  mutex : Option Process
  items : List UInt8
  message_in : Bool
  a : PcA
  i : Nat
  b : PcB
  received : List (List UInt8)

inductive Label
  | runA
  | runB
  | spuriousA
  | spuriousB
  deriving DecidableEq, Repr

def stepA (numMsg : Nat) (s : State) : Option State :=
  match s.a with
  | .lock => if s.mutex = none then some { s with mutex := some .a, a := .test } else none
  | .test =>
    if s.message_in then some { s with mutex := none, a := .asleep } else some { s with a := .sprintf }
  | .asleep => none
  | .woken => if s.mutex = none then some { s with mutex := some .a, a := .sprintf } else none
  | .sprintf => some { s with items := message numMsg s.i, a := .notify }
  | .notify => some { s with b := if s.b = .asleep then .woken else s.b, a := .setIn }
  | .setIn => some { s with message_in := true, a := .unlock }
  | .unlock =>
    some { s with mutex := none, a := if s.i + 1 < numMsg then .lock else .exited, i := s.i + 1 }
  | .exited => none

def stepB (s : State) : Option State :=
  match s.b with
  | .lock => if s.mutex = none then some { s with mutex := some .b, b := .test } else none
  | .test =>
    if s.message_in then some { s with b := .strcmp } else some { s with mutex := none, b := .asleep }
  | .asleep => none
  | .woken => if s.mutex = none then some { s with mutex := some .b, b := .strcmp } else none
  | .strcmp => some { s with b := if s.items = lastMessage then .unlockEnd else .log }
  | .log => some { s with received := s.received ++ [s.items], b := .clearIn }
  | .clearIn => some { s with message_in := false, b := .notify }
  | .notify => some { s with a := if s.a = .asleep then .woken else s.a, b := .unlock }
  | .unlock => some { s with mutex := none, b := .lock }
  | .unlockEnd => some { s with mutex := none, b := .exited }
  | .exited => none

def step (numMsg : Nat) (s : State) : Label → Option State
  | .runA => stepA numMsg s
  | .runB => stepB s
  | .spuriousA => if s.a = .asleep then some { s with a := .woken } else none
  | .spuriousB => if s.b = .asleep then some { s with b := .woken } else none

def system (numMsg : Nat) : Lts State Label where
  init := ⟨none, published numMsg 0, false, if 0 < numMsg then .lock else .exited, 0, .lock, []⟩
  step := step numMsg

/-- A process that comes back from `wait` finds `message_in` as it wants it. -/
def checked (s : State) : Label → Bool
  | .runA => !(s.a == .woken && s.message_in)
  | .runB => !(s.b == .woken && !s.message_in)
  | _ => true

-- ---------------------------------------------------------------------------
-- Where the processes can be
-- ---------------------------------------------------------------------------

/-- A has the mutex. -/
def PcA.inside : PcA → Bool
  | .test | .sprintf | .notify | .setIn | .unlock => true
  | _ => false

/-- B has the mutex. -/
def PcB.inside : PcB → Bool
  | .test | .strcmp | .log | .clearIn | .notify | .unlock | .unlockEnd => true
  | _ => false

attribute [local grind =] PcA.inside PcB.inside

/-- How many messages A has put into the slot. -/
def State.sent (s : State) : Nat :=
  s.i + if s.a = .notify ∨ s.a = .setIn ∨ s.a = .unlock then 1 else 0

/-- A process that sleeps waits for the other, and is not forgotten; B leaves the last message
in the slot. -/
structure Points (numMsg : Nat) (s : State) : Prop where
  mutexA : s.mutex = some .a ↔ s.a.inside = true
  mutexB : s.mutex = some .b ↔ s.b.inside = true
  items : s.items = published numMsg s.sent
  loop : s.a ≠ .exited → s.i < numMsg
  exited : s.a = .exited → s.i = numMsg
  asleepA : s.a = .asleep → s.message_in = true ∨ s.b = .notify
  asleepB : s.b = .asleep → s.message_in = false ∧ s.a ≠ .setIn
  logging : s.b = .log ∨ s.b = .clearIn → s.sent < numMsg
  ended : s.b = .unlockEnd ∨ s.b = .exited → s.a = .exited
  lastIn : s.a = .unlock ∨ s.a = .exited → s.message_in = true
  cleared : s.b = .notify ∨ s.b = .unlock → s.message_in = false

variable {numMsg : Nat} {s s' : State} {a : Label}

theorem Points.outside (h : Points numMsg s) (ha : s.a.inside = true) : s.b.inside = false := by
  have hb := h.mutexB
  rw [h.mutexA.mpr ha] at hb
  simpa using hb

/-- While B has the mutex, the messages sent are those of the passes A has behind it. -/
theorem Points.sent_eq (h : Points numMsg s) (hb : s.b.inside = true) : s.sent = s.i := by
  have hmutex := h.mutexB.mpr hb
  have ha := h.mutexA
  grind [State.sent, PcA.inside]

/-- B finds the last message where A has ended, and before that another one. -/
theorem Points.strcmp (hpos : 0 < numMsg) (h : Points numMsg s) (hb : s.b = .strcmp) :
    (s.items = lastMessage → s.a = .exited) ∧ (s.items ≠ lastMessage → s.sent < numMsg) := by
  have hsent := h.sent_eq (by rw [hb]; rfl)
  rw [h.items, Ne, published_eq_last hpos, hsent]
  refine ⟨fun hi => ?_, fun hi => ?_⟩
  · by_contra hne
    exact Nat.ne_of_lt (h.loop hne) hi
  · exact h.loop fun he => hi (h.exited he)

theorem points_stepA (h : Points numMsg s) (hstep : stepA numMsg s = some s') : Points numMsg s' := by
  obtain ⟨hma, hmb, hitems, hloop, hexit, hsa, hsb, hlog, hend, hlast, hclear⟩ := h
  cases ha : s.a <;> simp only [stepA, ha] at hstep <;> constructor <;>
    grind [PcA.inside, PcB.inside, State.sent, published]

theorem points_stepB (hpos : 0 < numMsg) (h : Points numMsg s) (hstep : stepB s = some s') :
    Points numMsg s' := by
  have hstrcmp := h.strcmp hpos
  obtain ⟨hma, hmb, hitems, hloop, hexit, hsa, hsb, hlog, hend, hlast, hclear⟩ := h
  cases hb : s.b <;> simp only [stepB, hb] at hstep <;> constructor <;>
    grind [PcA.inside, PcB.inside, State.sent]

theorem points_spurious (h : Points numMsg s) :
    (s.a = .asleep → Points numMsg { s with a := .woken }) ∧
      (s.b = .asleep → Points numMsg { s with b := .woken }) := by
  obtain ⟨hma, hmb, hitems, hloop, hexit, hsa, hsb, hlog, hend, hlast, hclear⟩ := h
  refine ⟨fun ha => ?_, fun hb => ?_⟩ <;> constructor <;> grind [PcA.inside, PcB.inside, State.sent]

-- ---------------------------------------------------------------------------
-- What B logs
-- ---------------------------------------------------------------------------

/-- How many messages had been sent at each entry of the log. -/
def State.log (s : State) : List Nat := s.received.map number

/-- The log goes through the messages in order. -/
structure Logged (numMsg : Nat) (s : State) : Prop where
  received : s.received = s.log.map (published numMsg)
  lt : ∀ k ∈ s.log, k < numMsg
  sorted : s.log.Pairwise (· ≤ ·)
  le : ∀ k ∈ s.log, k ≤ s.sent

theorem sent_stepA (h : stepA numMsg s = some s') : s.sent ≤ s'.sent := by
  cases ha : s.a <;> simp only [stepA, ha] at h <;> grind [State.sent]

theorem Logged.keep (h : Logged numMsg s) (hreceived : s'.received = s.received)
    (hsent : s.sent ≤ s'.sent) : Logged numMsg s' := by
  have hlog : s'.log = s.log := congrArg (List.map number) hreceived
  refine ⟨?_, ?_, ?_, ?_⟩ <;> rw [hlog]
  · rw [hreceived]
    exact h.received
  · exact h.lt
  · exact h.sorted
  · exact fun k hk => Nat.le_trans (h.le k hk) hsent

/-- B logs what was sent last. -/
theorem log_append (h : Points numMsg s) (hb : s.b = .log) :
    (s.received ++ [s.items]).map number = s.log ++ [s.sent] := by
  rw [List.map_append, List.map_singleton, h.items, number_published (h.logging (.inl hb))]
  rfl

theorem Logged.append (h : Logged numMsg s) (hp : Points numMsg s) (hb : s.b = .log) :
    Logged numMsg { s with received := s.received ++ [s.items], b := .clearIn } := by
  have hlog : State.log { s with received := s.received ++ [s.items], b := .clearIn } =
      s.log ++ [s.sent] := log_append hp hb
  refine ⟨?_, ?_, ?_, ?_⟩ <;> rw [hlog]
  · show s.received ++ [s.items] = _
    rw [List.map_append, List.map_singleton, ← h.received, ← hp.items]
  · intro k hk
    rcases List.mem_append.mp hk with hk | hk
    · exact h.lt k hk
    · rw [List.mem_singleton.mp hk]
      exact hp.logging (.inl hb)
  · rw [List.pairwise_append]
    refine ⟨h.sorted, List.pairwise_singleton .., fun k hk m hm => ?_⟩
    rw [List.mem_singleton.mp hm]
    exact h.le k hk
  · intro k hk
    rcases List.mem_append.mp hk with hk | hk
    · exact h.le k hk
    · exact Nat.le_of_eq (List.mem_singleton.mp hk)

/-- Only `log` adds to the log. -/
theorem received_stepB (hstep : stepB s = some s') (hb : s.b ≠ .log) : s'.received = s.received := by
  cases hpc : s.b <;> simp only [stepB, hpc] at hstep <;> grind

theorem sent_stepB (hstep : stepB s = some s') : s'.sent = s.sent := by
  cases hpc : s.b <;> simp only [stepB, hpc] at hstep <;> grind [State.sent]

theorem received_stepA (hstep : stepA numMsg s = some s') : s'.received = s.received := by
  cases hpc : s.a <;> simp only [stepA, hpc] at hstep <;> grind

theorem logged_stepB (h : Logged numMsg s) (hp : Points numMsg s) (hstep : stepB s = some s') :
    Logged numMsg s' := by
  by_cases hb : s.b = .log
  · rw [stepB, hb] at hstep
    cases hstep
    exact h.append hp hb
  · exact h.keep (received_stepB hstep hb) (Nat.le_of_eq (sent_stepB hstep).symm)

end DdsAuto.Interprocess.Cond
