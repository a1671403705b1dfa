import DdsAuto.Lib.CString
import DdsAuto.Lib.Lts
import DdsAuto.Lib.Memory

/-!
# The publishers of the Fast DDS examples

`runThread` writes `samples` samples, each with the next index, and goes round
without one while no reader has been matched. With `samples = 0` it waits for
nobody and writes until Enter. The middleware calls `on_publication_matched` at
any time; `matched` is the count of all matches so far, so it stays positive when
the readers leave.
-/

namespace DdsAuto.Fastdds

open CString Memory Lts

/-- The fields that `on_publication_matched` reads. -/
structure PublicationMatchedStatus where
  current_count_change : Int
  total_count : Int

/-- The listener of ZeroCopyExample has `matched` only. -/
structure PubListener where
  matched : Int
  first_connected_ : Bool
  deriving DecidableEq, Repr

/-- What the publishers of the examples differ in. The sample's array is `initial` at first, and
`publish` copies some bytes into it, depending on the new index. -/
structure Publisher where
  /-- A match sets `first_connected_`. -/
  connects : Bool
  /-- `publish` looks at `first_connected_`. -/
  asks : Bool
  initial : List UInt8
  copies : Nat → Option (Nat × List UInt8)
  fits : ∀ index < 4294967296, ∀ c ∈ copies index, c.1 + c.2.length ≤ initial.length

/-- What `write` was called with; the index is a `uint32_t`. -/
structure Sample where
  index : Nat
  data : List UInt8
  deriving DecidableEq, Repr

/-- Where `runThread` is: before the loop's condition, `publish`, or `++i`. -/
inductive Pc
  | test
  | publish
  | next
  | done
  deriving DecidableEq, Repr

/-- `total` and `current` are the middleware's counts of the readers matched so far and now. -/
structure State where
  listener : PubListener
  index : Nat
  data : List UInt8
  stop : Bool
  i : Nat
  pc : Pc
  written : List Sample
  total : Nat
  current : Nat
  deriving DecidableEq, Repr

inductive Label
  | run
  | enter
  | matched
  | unmatched
  deriving DecidableEq, Repr

def PubListener.on_publication_matched (e : Publisher) (l : PubListener)
    (info : PublicationMatchedStatus) : PubListener :=
  if info.current_count_change = 1 then
    { matched := info.total_count, first_connected_ := l.first_connected_ || e.connects }
  else if info.current_count_change = -1 then { l with matched := info.total_count }
  else l

/-- The next index, the bytes copied into the array, and `write`. -/
def State.write (e : Publisher) (s : State) : State :=
  let index := (s.index + 1) % 4294967296
  let data :=
    match e.copies index with
    | some (off, bytes) => store s.data off bytes
    | none => s.data
  { s with index := index, data := data, written := s.written ++ [⟨index, data⟩] }

def publish (e : Publisher) (waitForListener : Bool) (s : State) : Bool × State :=
  if (e.asks && s.listener.first_connected_) || !waitForListener ||
      decide (s.listener.matched > 0) then
    (true, s.write e)
  else (false, s)

/-- `i` is a `uint32_t`, and a failed `publish` takes it one back. -/
def runThread (e : Publisher) (samples : Nat) (s : State) : Option State :=
  match s.pc with
  | .test =>
    let again := if samples = 0 then !s.stop else decide (s.i < samples)
    some { s with pc := if again then .publish else .done }
  | .publish =>
    if samples = 0 then some { (publish e false s).2 with pc := .test }
    else match publish e true s with
      | (true, s) => some { s with pc := .next }
      | (false, s) => some { s with i := (s.i + 4294967295) % 4294967296, pc := .next }
  | .next => some { s with i := (s.i + 1) % 4294967296, pc := .test }
  | .done => none

/-- In `run` the main thread waits for Enter only if `samples` is 0. -/
def step (e : Publisher) (samples : Nat) (s : State) : Label → Option State
  | .run => runThread e samples s
  | .enter => if samples = 0 ∧ s.stop = false then some { s with stop := true } else none
  | .matched => some { s with
      listener := s.listener.on_publication_matched e ⟨1, s.total + 1⟩
      total := s.total + 1
      current := s.current + 1 }
  | .unmatched =>
    if 0 < s.current then
      some { s with
        listener := s.listener.on_publication_matched e ⟨-1, s.total⟩
        current := s.current - 1 }
    else none

def system (e : Publisher) (samples : Nat) : Lts State Label where
  init := ⟨⟨0, false⟩, 0, e.initial, false, 0, .test, [], 0, 0⟩
  step := step e samples

-- ---------------------------------------------------------------------------
-- The examples
-- ---------------------------------------------------------------------------

/-- `"BigData"` and the last digit of the index go to the end of the array. -/
def bigData (index : Nat) : List UInt8 := [66, 105, 103, 68, 97, 116, 97] ++ decimal (index % 10)

/-- `"LoanableHelloWorld"` and the index go to the front of the message. -/
def loanable (index : Nat) : List UInt8 :=
  [76, 111, 97, 110, 97, 98, 108, 101, 72, 101, 108, 108, 111, 87, 111, 114, 108, 100] ++
    decimal index

/-- `"Hello Loan World Zero Copy"`. -/
def helloLoan : List UInt8 :=
  [72, 101, 108, 108, 111, 32, 76, 111, 97, 110, 32, 87, 111, 114, 108, 100, 32, 90, 101, 114, 111,
    32, 67, 111, 112, 121]

theorem length_bigData_le (index : Nat) : (bigData index).length ≤ 17 := by
  have hdec := length_decimal_le (n := index % 10) (by omega)
  rw [bigData, List.length_append]
  exact Nat.add_le_add_left hdec 7

theorem length_loanable_le (h : index < 4294967296) : (loanable index).length ≤ 28 := by
  have hdec := length_decimal_le (n := index) (by omega)
  rw [loanable, List.length_append]
  exact Nat.add_le_add_left hdec 18

/-- HelloWorldExampleSharedMem. -/
def sharedMem : Publisher where
  connects := false
  asks := true
  initial := List.replicate 1048576 0
  copies index := some (1048576 - (bigData index).length - 1, bigData index ++ [0])
  fits index _ c hc := by
    have hlen := length_bigData_le index
    cases hc
    simp only [List.length_append, List.length_singleton, List.length_replicate]
    omega

/-- HelloWorldExampleDataSharing. -/
def dataSharing : Publisher where
  connects := true
  asks := true
  initial := List.replicate 1048576 0
  copies _ := none
  fits _ _ _ hc := by cases hc

/-- ZeroCopyExample. -/
def zeroCopy : Publisher where
  connects := false
  asks := false
  initial := helloLoan ++ List.replicate 230 0
  copies index := some (0, loanable index ++ [0])
  fits index hlt c hc := by
    have hlen := length_loanable_le hlt
    cases hc
    simp only [List.length_append, List.length_replicate, helloLoan, List.length_cons,
      List.length_nil]
    omega

-- ---------------------------------------------------------------------------
-- The invariant
-- ---------------------------------------------------------------------------

variable {e : Publisher} {samples : Nat} {s s' : State} {a : Label} {as : List Label}

/-- What was copied for its index is in the sample's array. -/
def Publisher.Holds (e : Publisher) (sample : Sample) : Prop :=
  ∀ c ∈ e.copies sample.index, load sample.data c.1 c.2.length = c.2

/-- With `samples ≠ 0`: `i` at each point, where `k` samples have been written. After a failed
`publish` it is one behind, and wraps around where `k` is 0. -/
def LoopOk (samples k i : Nat) : Pc → Prop
  | .test => i = k ∧ k ≤ samples
  | .publish => i = k ∧ k < samples
  | .next => (i + 1) % 4294967296 = k ∧ k ≤ samples
  | .done => k = samples

structure Inv (e : Publisher) (samples : Nat) (s : State) : Prop where
  size : s.data.length = e.initial.length
  index : s.index = s.written.length % 4294967296
  numbers : s.written.map Sample.index =
    (List.range s.written.length).map fun k => (k + 1) % 4294967296
  texts : ∀ sample ∈ s.written, e.Holds sample
  matched : s.listener.matched = s.total
  connected : s.listener.first_connected_ = true → 0 < s.total
  waits : samples ≠ 0 → s.written ≠ [] → 0 < s.total
  loop : samples ≠ 0 → LoopOk samples s.written.length s.i s.pc
  stopped : samples = 0 → s.pc = .done → s.stop = true

theorem inv_init : Inv e samples (system e samples).init where
  size := rfl
  index := rfl
  numbers := rfl
  texts _ hin := absurd hin List.not_mem_nil
  matched := rfl
  connected h := Bool.noConfusion h
  waits _ hne := absurd rfl hne
  loop _ := ⟨rfl, Nat.zero_le _⟩
  stopped _ h := Pc.noConfusion h

/-- A callback of the middleware: the counts go up, or only `matched` is set again. -/
theorem Inv.callback (h : Inv e samples s) {info : PublicationMatchedStatus} {total current : Nat}
    (hchange : info.current_count_change = 1 ∨ info.current_count_change = -1)
    (hinfo : info.total_count = total) (htotal : s.total ≤ total)
    (hpos : info.current_count_change = 1 → 0 < total) :
    Inv e samples { s with
      listener := s.listener.on_publication_matched e info, total := total, current := current } where
  size := h.size
  index := h.index
  numbers := h.numbers
  texts := h.texts
  matched := by
    rcases hchange with hone | hone <;> simp [PubListener.on_publication_matched, hone, hinfo]
  connected hfirst := by
    rcases hchange with hone | hone
    · exact hpos hone
    · simp only [PubListener.on_publication_matched, hone] at hfirst
      exact Nat.lt_of_lt_of_le (h.connected hfirst) htotal
  waits hne hw := Nat.lt_of_lt_of_le (h.waits hne hw) htotal
  loop := h.loop
  stopped := h.stopped

/-- The array after the copy has its length and holds the text. -/
theorem copied (hsize : data.length = e.initial.length) (hindex : index < 4294967296) :
    ∃ data', (match e.copies index with
      | some (off, bytes) => store data off bytes
      | none => data) = data' ∧ data'.length = e.initial.length ∧ e.Holds ⟨index, data'⟩ := by
  cases hcopies : e.copies index with
  | none =>
    refine ⟨data, rfl, hsize, fun c hc => ?_⟩
    rw [hcopies] at hc
    cases hc
  | some c =>
    obtain ⟨off, bytes⟩ := c
    have hfits : off + bytes.length ≤ data.length := by
      rw [hsize]
      exact e.fits index hindex (off, bytes) (by rw [hcopies]; rfl)
    refine ⟨store data off bytes, rfl, by rw [length_store, hsize], fun c hc => ?_⟩
    rw [hcopies] at hc
    cases hc
    exact load_store_at hfits

theorem Inv.write (h : Inv e samples s) (hready : samples ≠ 0 → 0 < s.total) {pc : Pc}
    (hloop : samples ≠ 0 → LoopOk samples (s.written.length + 1) s.i pc)
    (hpc : samples = 0 → pc ≠ .done) : Inv e samples { s.write e with pc := pc } := by
  obtain ⟨data', hdata, hlen, hholds⟩ :=
    copied h.size (Nat.mod_lt (s.index + 1) (by decide : 4294967296 > 0))
  have hlength : (s.written ++ [Sample.mk ((s.index + 1) % 4294967296) data']).length =
      s.written.length + 1 := by simp
  have hindex : (s.index + 1) % 4294967296 = (s.written.length + 1) % 4294967296 := by
    rw [h.index]
    omega
  simp only [State.write, hdata]
  refine ⟨hlen, ?_, ?_, fun sample hin => ?_, h.matched, h.connected, fun hne _ => hready hne,
    fun hne => ?_, fun hzero hdone => absurd hdone (hpc hzero)⟩
  · rw [hlength]
    exact hindex
  · rw [hlength, List.map_append, h.numbers, List.range_succ, List.map_append]
    simp only [List.map_singleton, hindex]
  · rcases List.mem_append.mp hin with hold | hnew
    · exact h.texts sample hold
    · rw [List.mem_singleton.mp hnew]
      exact hholds
  · rw [hlength]
    exact hloop hne

/-- `publish` writes, if it waits for nobody or a reader has been matched. -/
theorem publish_ready (h : Inv e samples s) :
    publish e true s = if 0 < s.total then (true, s.write e) else (false, s) := by
  unfold publish
  by_cases htotal : 0 < s.total
  · have hmatched : s.listener.matched > 0 := by
      rw [h.matched]
      exact Int.natCast_pos.mpr htotal
    simp [htotal, hmatched]
  · have hfirst : s.listener.first_connected_ = false := by
      rw [← Bool.not_eq_true]
      exact fun hf => htotal (h.connected hf)
    have hmatched : ¬ s.listener.matched > 0 := by
      rw [h.matched]
      exact fun hpos => htotal (Int.natCast_pos.mp hpos)
    simp [htotal, hfirst, hmatched]

/-- `runThread` goes on to another point. -/
theorem Inv.move (h : Inv e samples s) {i : Nat} {pc : Pc}
    (hloop : samples ≠ 0 → LoopOk samples s.written.length i pc)
    (hstop : samples = 0 → pc = .done → s.stop = true) :
    Inv e samples { s with i := i, pc := pc } :=
  { h with loop := hloop, stopped := hstop }

theorem inv_runThread (h : Inv e samples s) (hlt : samples < 4294967296)
    (hrun : runThread e samples s = some s') : Inv e samples s' := by
  have hloop := h.loop
  cases hpc : s.pc with
  | test =>
    simp only [runThread, hpc, Option.some.injEq] at hrun hloop
    subst hrun
    by_cases hzero : samples = 0
    · refine h.move (fun hne => absurd hzero hne) fun _ hdone => ?_
      cases hstop : s.stop with
      | true => rfl
      | false => simp [hzero, hstop] at hdone
    · refine h.move (fun _ => ?_) (fun heq => absurd heq hzero)
      obtain ⟨hi, hle⟩ := hloop hzero
      rw [if_neg hzero]
      by_cases hmore : s.i < samples
      · simp only [hmore, decide_true, if_true]
        exact ⟨hi, by omega⟩
      · simp only [hmore, decide_false, Bool.false_eq_true, if_false, LoopOk]
        omega
  | publish =>
    simp only [runThread, hpc] at hrun hloop
    by_cases hzero : samples = 0
    · rw [if_pos hzero, show publish e false s = (true, s.write e) by simp [publish]] at hrun
      cases hrun
      exact h.write (fun hne => absurd hzero hne) (fun hne => absurd hzero hne)
        fun _ => Pc.noConfusion
    · rw [if_neg hzero, publish_ready h] at hrun
      obtain ⟨hi, hmore⟩ := hloop hzero
      by_cases htotal : 0 < s.total
      · rw [if_pos htotal] at hrun
        cases hrun
        refine h.write (fun _ => htotal) (fun _ => ⟨?_, hmore⟩) fun heq => absurd heq hzero
        omega
      · rw [if_neg htotal] at hrun
        cases hrun
        refine h.move (fun _ => ⟨?_, Nat.le_of_lt hmore⟩) fun heq => absurd heq hzero
        omega
  | next =>
    simp only [runThread, hpc, Option.some.injEq] at hrun hloop
    subst hrun
    exact h.move hloop fun _ hdone => Pc.noConfusion hdone
  | done => simp [runThread, hpc] at hrun

theorem inv_step (h : Inv e samples s) (hlt : samples < 4294967296)
    (hstep : step e samples s a = some s') : Inv e samples s' := by
  cases a with
  | run => exact inv_runThread h hlt hstep
  | enter =>
    simp only [step, Option.ite_none_right_eq_some, Option.some.injEq] at hstep
    obtain ⟨-, rfl⟩ := hstep
    exact { h with stopped := fun _ _ => rfl }
  | matched =>
    cases hstep
    exact h.callback (.inl rfl) (by simp) (Nat.le_succ _) fun _ => Nat.succ_pos _
  | unmatched =>
    simp only [step, Option.ite_none_right_eq_some, Option.some.injEq] at hstep
    obtain ⟨-, rfl⟩ := hstep
    exact h.callback (.inr rfl) rfl (Nat.le_refl _) fun hone =>
      absurd hone (show ¬ (-1 : Int) = 1 by decide)

-- ---------------------------------------------------------------------------
-- Progress
-- ---------------------------------------------------------------------------

theorem exists_run (hpc : s.pc ≠ .done) : ∃ s', step e samples s .run = some s' := by
  cases h : s.pc with
  | done => exact absurd h hpc
  | publish =>
    by_cases hzero : samples = 0
    · exact ⟨_, by simp only [step, runThread, h, hzero, if_true]; rfl⟩
    · cases hp : publish e true s with
      | mk ok t => cases ok <;> exact ⟨_, by simp only [step, runThread, h, hzero, hp]; rfl⟩
  | test | next => exact ⟨_, by simp only [step, runThread, h]; rfl⟩

/-- The steps of `runThread` that are left once a reader has been matched. -/
def State.left (samples : Nat) (s : State) : Nat :=
  match s.pc with
  | .test => 3 * (samples - s.written.length) + 1
  | .publish => 3 * (samples - s.written.length)
  | .next => 3 * (samples - s.written.length) + 2
  | .done => 0

def credit (a : Label) : Nat := if a = .run then 0 else 1

theorem credits_credit (as : List Label) : as.count .run + credits credit as = as.length := by
  have hcredit (a : Label) : credit a = if decide (¬ (a == .run) = true) then 1 else 0 := by
    cases a <;> rfl
  rw [credits_of_ite hcredit, Nat.one_mul, List.count]
  exact (List.length_eq_countP_add_countP ..).symm

theorem left_runThread (h : Inv e samples s) (hzero : samples ≠ 0) (htotal : 0 < s.total)
    (hrun : runThread e samples s = some s') : s'.left samples < s.left samples := by
  have hloop := h.loop hzero
  cases hpc : s.pc with
  | test =>
    simp only [runThread, hpc, if_neg hzero, Option.some.injEq] at hrun
    subst hrun
    simp only [State.left, hpc]
    split <;> rename_i hmore <;> split at hmore <;> cases hmore <;> omega
  | publish =>
    rw [hpc] at hloop
    simp only [runThread, hpc, if_neg hzero, publish_ready h, if_pos htotal, Option.some.injEq] at hrun
    subst hrun
    have hmore : s.written.length < samples := hloop.2
    simp only [State.left, hpc, State.write, List.length_append, List.length_singleton]
    omega
  | next =>
    simp only [runThread, hpc, Option.some.injEq] at hrun
    subst hrun
    simp only [State.left, hpc]
    omega
  | done => simp [runThread, hpc] at hrun

theorem left_step (h : Inv e samples s) (hzero : samples ≠ 0) (htotal : 0 < s.total)
    (hstep : step e samples s a = some s') : s'.left samples < s.left samples + credit a := by
  cases a with
  | run => exact left_runThread h hzero htotal hstep
  | enter =>
    simp only [step, hzero, false_and, if_false] at hstep
    cases hstep
  | matched =>
    cases hstep
    exact Nat.lt_succ_self _
  | unmatched =>
    simp only [step, Option.ite_none_right_eq_some, Option.some.injEq] at hstep
    obtain ⟨-, rfl⟩ := hstep
    exact Nat.lt_succ_self _

theorem publish_total (e : Publisher) (waitForListener : Bool) (s : State) :
    (publish e waitForListener s).2.total = s.total := by
  unfold publish
  split <;> rfl

theorem runThread_total (hrun : runThread e samples s = some s') : s'.total = s.total := by
  cases hpc : s.pc with
  | publish =>
    simp only [runThread, hpc] at hrun
    split at hrun
    · cases hrun
      exact publish_total e false s
    · have htotal := publish_total e true s
      split at hrun <;> rename_i hpublish <;> cases hrun <;> rw [hpublish] at htotal <;> exact htotal
  | done => simp [runThread, hpc] at hrun
  | test | next =>
    simp only [runThread, hpc, Option.some.injEq] at hrun
    subst hrun
    rfl

/-- A reader that has been matched counts for ever. -/
theorem total_step (hstep : step e samples s a = some s') (htotal : 0 < s.total) :
    0 < s'.total := by
  cases a with
  | run => rwa [runThread_total hstep]
  | enter | unmatched =>
    simp only [step, Option.ite_none_right_eq_some, Option.some.injEq] at hstep
    obtain ⟨-, rfl⟩ := hstep
    exact htotal
  | matched =>
    cases hstep
    exact Nat.succ_pos _

theorem left_le (samples : Nat) (s : State) :
    s.left samples ≤ 3 * (samples - s.written.length) + 2 := by
  unfold State.left
  split <;> omega

/-- What `runThread` has written: every index once and in order, each array with the text of its
index; with `samples ≠ 0` nothing before a reader has been matched, and `samples` of them when
it returns. -/
structure Published (e : Publisher) (samples : Nat) (s : State) : Prop where
  numbers : s.written.map Sample.index =
    (List.range s.written.length).map fun k => (k + 1) % 4294967296
  texts : ∀ sample ∈ s.written, e.Holds sample
  waits : samples ≠ 0 → s.written ≠ [] → 0 < s.total
  atMost : samples ≠ 0 → s.written.length ≤ samples
  returns : s.pc = .done → if samples = 0 then s.stop = true else s.written.length = samples

theorem published (h : Inv e samples s) : Published e samples s where
  numbers := h.numbers
  texts := h.texts
  waits := h.waits
  atMost hne := by
    have hloop := h.loop hne
    cases hpc : s.pc <;> simp only [hpc, LoopOk] at hloop <;> omega
  returns hdone := by
    split
    · rename_i hzero
      exact h.stopped hzero hdone
    · rename_i hne
      have hloop := h.loop hne
      rwa [hdone] at hloop

/-- In every run the publisher writes what it should; it can go on until it returns, and once a
reader has been matched it returns, also where every reader has left. -/
theorem publisher_writes_samples (hlt : samples < 4294967296)
    (hrun : (system e samples).exec (system e samples).init as = some s) :
    Published e samples s ∧ (s.pc ≠ .done → ∃ s', (system e samples).step s .run = some s') ∧
      (samples ≠ 0 → 0 < s.total → ∀ bs s', (system e samples).exec s bs = some s' →
        bs.count .run ≤ 3 * (samples - s.written.length) + 2) := by
  have hinv : Inv e samples s := (Reachable.init.exec hrun).invariant inv_init
    fun _ _ _ h _ hstep => inv_step h hlt hstep
  refine ⟨published hinv, exists_run, fun hne htotal bs s' hbs => ?_⟩
  have hle := length_le_of_credit (L := system e samples)
    (P := fun t => Inv e samples t ∧ 0 < t.total) (μ := State.left samples) credit
    (fun _ _ _ h hstep => left_step h.1 hne h.2 hstep)
    (fun _ _ _ h hstep => ⟨inv_step h.1 hlt hstep, total_step hstep h.2⟩) ⟨hinv, htotal⟩ hbs
  have hcount := credits_credit bs
  have hmost := left_le samples s
  omega

/-- A reader is matched and leaves again, and two samples are written for nobody. -/
theorem publisher_writes_samples_two : ∃ as s,
    (system zeroCopy 2).exec (system zeroCopy 2).init as = some s ∧ s.current = 0 ∧
      s.pc = .done ∧ Published zeroCopy 2 s := by
  let as : List Label := [.run, .run, .run, .matched, .unmatched] ++ List.replicate 7 .run
  have hrun : ((system zeroCopy 2).exec (system zeroCopy 2).init as).any
      (fun s => s.current == 0 && s.pc == .done) = true := by decide +kernel
  obtain ⟨s, hrun, hcheck⟩ := (Option.any_eq_true _ _).mp hrun
  rw [Bool.and_eq_true, beq_iff_eq, beq_iff_eq] at hcheck
  exact ⟨as, s, hrun, hcheck.1, hcheck.2, (publisher_writes_samples (by decide) hrun).1⟩

end DdsAuto.Fastdds
