import DdsAuto.Lib.Blocks
import DdsAuto.Lib.CInt
import DdsAuto.Lib.Lts
import Mathlib.Algebra.Ring.Nat

/-!
# `parallel_accumulate`

The caller cuts the range into blocks, starts a thread for each block but the last,
adds up the last one itself, joins the threads and adds up the results. The calls of
`accumulate_block` run element by element, in any order among one another:
`parallel_accumulate_correct`. The blocks follow one another and the results are added
in their order, so an associative sum with `T()` as its identity is enough.
-/

namespace DdsAuto.Concurrent.ParallelAccumulate

open Blocks Lts

def min_per_thread : Nat := 25

/-- The arithmetic is that of `unsigned long`: `no_wrap`. -/
def maxThreads (length : Nat) : Nat := (length + min_per_thread - 1) / min_per_thread

/-- `hardware_threads` is what `hardware_concurrency` returns. -/
def numThreads (length hardware_threads : Nat) : Nat :=
  min (if hardware_threads ≠ 0 then hardware_threads else 2) (maxThreads length)

/-- `length / num_threads`, which has no value where the divisor is 0. -/
def blockSize (length hardware_threads : Nat) : Option Nat :=
  if numThreads length hardware_threads = 0 then none
  else some (length / numThreads length hardware_threads)

/-- Where a call of `accumulate_block` is: before `std::accumulate` copies `result`, in
its loop with `first` at `pos`, or back with `result` assigned. -/
inductive Point (T : Type)
  | called
  | adding (pos : Nat) (init : T)
  | returned
  deriving DecidableEq, Repr

def Point.Returned : Point T → Prop
  | .returned => True
  | _ => False

theorem Point.Returned.eq {p : Point T} (h : p.Returned) : p = .returned := by
  cases p with
  | called | adding => exact h.elim
  | returned => rfl

instance (p : Point T) : Decidable p.Returned := by
  cases p <;> unfold Point.Returned <;> infer_instance

/-- A call and its arguments. -/
structure Call (T : Type) where
  first : Nat
  last : Nat
  point : Point T
  deriving DecidableEq, Repr

/-- Where `parallel_accumulate` is: at the head of its first loop, in its own call of
`accumulate_block`, at the head of the loop that joins, or in the last `std::accumulate`. -/
inductive Main (T : Type)
  | entry
  | start (block_size i block_start : Nat)
  | own
  | join (i : Nat)
  | sum (i : Nat) (init : T)
  | returned (value : T)
  deriving DecidableEq, Repr

/-- `calls` are the calls of `accumulate_block` made so far: the one for `results[i]` by
`threads[i]`, and the last one by `parallel_accumulate` itself. -/
structure State (T : Type) where
  main : Main T
  results : List T
  calls : List (Call T)
  deriving DecidableEq, Repr

/-- `call k`: the call for `results[k]` moves. -/
inductive Label
  | main
  | call (k : Nat)
  deriving DecidableEq, Repr

def Call.range (c : Call T) : Nat × Nat := (c.first, c.last)

/-- The call for `results[k]` has returned. -/
def State.Returned (s : State T) (k : Nat) : Prop := ∃ c ∈ s.calls[k]?, c.point.Returned

instance (s : State T) (k : Nat) : Decidable (s.Returned k) := by
  unfold State.Returned
  infer_instance

/-- The call that `parallel_accumulate` is in, or joins. -/
def State.awaits (num_threads : Nat) (s : State T) : Option Nat :=
  match s.main with
  | .own => some (num_threads - 1)
  | .join i => some i
  | _ => none

section
variable {T : Type} [Add T] [Zero T]

/-- `std::accumulate` -/
def accumulate (xs : List T) (init : T) : T := xs.foldl (· + ·) init

/-- The next step of a call. Behind the range there is nothing to read, and no result
to assign behind the last one. -/
def Call.step (xs : List T) (results : List T) (k : Nat) (c : Call T) :
    Option (Call T × List T) :=
  match c.point with
  | .called => results[k]?.map fun result => ({ c with point := .adding c.first result }, results)
  | .adding pos init =>
    if pos ≠ c.last then
      xs[pos]?.map fun x => ({ c with point := .adding (pos + 1) (init + x) }, results)
    else if k < results.length then some ({ c with point := .returned }, results.set k init)
    else none
  | .returned => none

def stepCall (xs : List T) (s : State T) (k : Nat) : Option (State T) :=
  s.calls[k]?.bind fun c =>
    (c.step xs s.results k).map fun r => { s with results := r.2, calls := s.calls.set k r.1 }

/-- The next step of `parallel_accumulate` on the range `xs`; `advance` stays inside it. -/
def stepMain (xs : List T) (hardware_threads : Nat) (init : T) (s : State T) :
    Option (State T) :=
  let num_threads := numThreads xs.length hardware_threads
  match s.main with
  | .entry =>
    if xs.length = 0 then some { s with main := .returned init }
    else
      (blockSize xs.length hardware_threads).map fun block_size =>
        { s with main := .start block_size 0 0, results := List.replicate num_threads 0 }
  | .start block_size i block_start =>
    if i < num_threads - 1 then
      let block_end := block_start + block_size
      if block_end ≤ xs.length then
        some { s with
          main := .start block_size (i + 1) block_end
          calls := s.calls ++ [⟨block_start, block_end, .called⟩] }
      else none
    else some { s with main := .own, calls := s.calls ++ [⟨block_start, xs.length, .called⟩] }
  | .own =>
    if s.Returned (num_threads - 1) then some { s with main := .join 0 } else none
  | .join i =>
    if i < num_threads - 1 then
      if s.Returned i then some { s with main := .join (i + 1) } else none
    else some { s with main := .sum 0 init }
  | .sum i acc =>
    match s.results[i]? with
    | some result => some { s with main := .sum (i + 1) (acc + result) }
    | none => some { s with main := .returned acc }
  | .returned _ => none

def step (xs : List T) (hardware_threads : Nat) (init : T) (s : State T) : Label → Option (State T)
  | .main => stepMain xs hardware_threads init s
  | .call k => stepCall xs s k

def system (xs : List T) (hardware_threads : Nat) (init : T) : Lts (State T) Label where
  init := ⟨.entry, [], []⟩
  step := step xs hardware_threads init

/-- Every run ends, and only with the sum of the whole range. Until then the caller waits
for a call or moves, and so does every call: nothing undefined is next. The blocks lead
from the start of the range to its end, and none is empty. -/
structure Correct (xs : List T) (hardware_threads : Nat) (init : T) (s : State T) : Prop where
  value : ∀ v, s.main = .returned v → v = accumulate xs init
  divides : xs = [] ∨ 0 < numThreads xs.length hardware_threads ∧
    ∃ block_size, blockSize xs.length hardware_threads = some block_size ∧ 1 ≤ block_size
  blocks : ∃ m ≤ xs.length, Covers 0 (s.calls.map Call.range) m
  partitions : ∀ v, s.main = .returned v → Covers 0 (s.calls.map Call.range) xs.length
  moves : (∃ v, s.main = .returned v) ∨
    (∃ s', (system xs hardware_threads init).step s .main = some s') ∨
    ∃ k < s.calls.length, s.awaits (numThreads xs.length hardware_threads) = some k ∧ ¬ s.Returned k
  defined : ∀ k < s.calls.length, s.Returned k ∨
    ∃ s', (system xs hardware_threads init).step s (.call k) = some s'
  completes : ∃ as s', (system xs hardware_threads init).exec s as = some s' ∧
    s'.main = .returned (accumulate xs init)
  ends : ∃ n, ∀ as s', (system xs hardware_threads init).exec s as = some s' → as.length ≤ n

end

-- ---------------------------------------------------------------------------
-- The blocks
-- ---------------------------------------------------------------------------

variable {length hardware_threads block_size : Nat}

/-- `std::distance` is a `ptrdiff_t`. -/
theorem no_wrap (h : length < 9223372036854775808) :
    CInt.toSizeT (length + min_per_thread - 1 : Nat) = length + min_per_thread - 1 :=
  CInt.toSizeT_natCast _ (by unfold min_per_thread; omega)

theorem numThreads_le : numThreads length hardware_threads ≤ length := by
  unfold numThreads maxThreads min_per_thread
  omega

theorem numThreads_pos (h : length ≠ 0) : 0 < numThreads length hardware_threads := by
  unfold numThreads maxThreads min_per_thread
  split <;> omega

theorem blockSize_of_ne (h : length ≠ 0) : ∃ block_size,
    blockSize length hardware_threads = some block_size := by
  have hpos : 0 < numThreads length hardware_threads := numThreads_pos h
  exact ⟨_, if_neg (Nat.ne_of_gt hpos)⟩

theorem blockSize_eq (h : blockSize length hardware_threads = some block_size) :
    0 < numThreads length hardware_threads ∧ 1 ≤ block_size ∧
      numThreads length hardware_threads * block_size ≤ length := by
  simp only [blockSize, Option.ite_none_left_eq_some, Option.some.injEq] at h
  obtain ⟨hne, rfl⟩ := h
  have hpos := Nat.pos_of_ne_zero hne
  exact ⟨hpos, (Nat.one_le_div_iff hpos).mpr numThreads_le, Nat.mul_div_le _ _⟩

-- ---------------------------------------------------------------------------
-- Calls and their number of steps
-- ---------------------------------------------------------------------------

variable {T : Type} {xs results results' : List T} {result : Option T} {init v : T}
variable {main : Main T} {s s' : State T} {c c' : Call T} {i j k m : Nat}

theorem map_range_set (hk : s.calls[k]? = some c) (hrange : c'.range = c.range) :
    (s.calls.set k c').map Call.range = s.calls.map Call.range := by
  obtain ⟨hlt, hget⟩ := List.getElem?_eq_some_iff.mp hk
  refine List.ext_getElem? fun j => ?_
  rw [List.getElem?_map, List.getElem?_map, List.getElem?_set]
  split
  · rename_i hkj
    subst hkj
    simp [hlt, hget, hrange]
  · rfl

theorem State.Returned.set (h : s.Returned j) (hne : j ≠ k) :
    State.Returned ⟨main, results, s.calls.set k c'⟩ j := by
  obtain ⟨d, hd, hret⟩ := h
  exact ⟨d, by rw [List.getElem?_set_ne hne.symm]; exact hd, hret⟩

theorem not_returned (hk : s.calls[k]? = some c) (hrun : ¬ c.point.Returned) (h : s.Returned j) :
    j ≠ k := by
  rintro rfl
  obtain ⟨d, hd, hret⟩ := h
  rw [hk] at hd
  cases hd
  exact hrun hret

/-- The steps still to come, at most. -/
def Call.cost (length : Nat) (c : Call T) : Nat :=
  match c.point with
  | .called => length + 2
  | .adding pos _ => length - pos + 1
  | .returned => 0

/-- The steps still to come, at most, but for those of the calls already made. -/
def Main.cost (length num_threads : Nat) : Main T → Nat
  | .entry => num_threads * (length + 3) + 2 * num_threads + 5
  | .start _ i _ => (num_threads - i) * (length + 3) + 2 * num_threads + 4
  | .own => 2 * num_threads + 3
  | .join i => num_threads - i + num_threads + 2
  | .sum i _ => num_threads - i + 1
  | .returned _ => 0

def State.cost (length num_threads : Nat) (s : State T) : Nat :=
  s.main.cost length num_threads + (s.calls.map (Call.cost length)).sum

theorem sum_cost_set {calls : List (Call T)} (hk : calls[k]? = some c)
    (hlt : c'.cost length < c.cost length) :
    ((calls.set k c').map (Call.cost length)).sum < (calls.map (Call.cost length)).sum := by
  induction calls generalizing k with
  | nil => cases hk
  | cons d calls ih =>
    cases k with
    | zero =>
      cases hk
      exact Nat.add_lt_add_right hlt _
    | succ k => exact Nat.add_lt_add_left (ih hk) _

theorem cost_append {calls : List (Call T)} (first last : Nat) :
    ((calls ++ [(⟨first, last, .called⟩ : Call T)]).map (Call.cost length)).sum =
      (calls.map (Call.cost length)).sum + (length + 2) := by
  rw [List.map_append, List.sum_append]
  rfl

-- ---------------------------------------------------------------------------
-- A call
-- ---------------------------------------------------------------------------

variable [AddMonoid T]

/-- What a call has made of its block so far, and of its result. -/
def Call.Ok (xs : List T) (result : Option T) (c : Call T) : Prop :=
  match c.point with
  | .called => result = some 0
  | .adding pos init => c.first ≤ pos ∧ pos ≤ c.last ∧ init = (slice xs (c.first, pos)).sum ∧
      result.isSome = true
  | .returned => result = some (slice xs c.range).sum

/-- What a step of a call does: to the call, and to the results. -/
structure Call.Stepped (xs : List T) (results : List T) (k : Nat) (c c' : Call T)
    (results' : List T) : Prop where
  running : ¬ c.point.Returned
  range : c'.range = c.range
  ok : c'.Ok xs results'[k]?
  others : ∀ j, j ≠ k → results'[j]? = results[j]?
  length : results'.length = results.length
  cost : c'.cost xs.length < c.cost xs.length

theorem Call.stepped (hok : c.Ok xs results[k]?) (hle : c.first ≤ c.last)
    (hstep : c.step xs results k = some (c', results')) : c.Stepped xs results k c' results' := by
  obtain ⟨first, last, point⟩ := c
  cases point with
  | called =>
    simp only [Call.step, Option.map_eq_some_iff, Prod.mk.injEq] at hstep
    obtain ⟨result, hresult, rfl, rfl⟩ := hstep
    have hzero : result = 0 := Option.some.inj (hresult.symm.trans hok)
    refine ⟨id, rfl, ⟨Nat.le_refl _, hle, ?_, ?_⟩, fun _ _ => rfl, rfl, ?_⟩
    · rw [hzero, slice_self, List.sum_nil]
    · rw [hresult]
      rfl
    · simp only [Call.cost]
      omega
  | adding pos init =>
    obtain ⟨hfirst, hlast, hinit, hsome⟩ := hok
    simp only [Call.step] at hstep
    split at hstep
    · rename_i hne
      simp only [Option.map_eq_some_iff, Prod.mk.injEq] at hstep
      obtain ⟨x, hx, rfl, rfl⟩ := hstep
      have hlt : pos < xs.length := (List.getElem?_eq_some_iff.mp hx).1
      refine ⟨id, rfl, ⟨Nat.le_succ_of_le hfirst, Nat.lt_of_le_of_ne hlast hne, ?_, hsome⟩,
        fun _ _ => rfl, rfl, ?_⟩
      · rw [slice_snoc hfirst hx, List.sum_append, List.sum_singleton, hinit]
      · simp only [Call.cost]
        omega
    · rename_i hend
      simp only [Option.ite_none_right_eq_some, Option.some.injEq, Prod.mk.injEq] at hstep
      obtain ⟨hk, rfl, rfl⟩ := hstep
      obtain rfl : pos = last := not_not.mp hend
      refine ⟨id, rfl, ?_, fun j hj => List.getElem?_set_ne (Ne.symm hj), List.length_set, ?_⟩
      · simp only [Call.Ok, Call.range, List.getElem?_set_self hk, hinit]
      · simp only [Call.cost]
        omega
  | returned => cases hstep

theorem Call.exists_step (hok : c.Ok xs results[k]?) (hle : c.last ≤ xs.length)
    (hrun : ¬ c.point.Returned) : ∃ r, c.step xs results k = some r := by
  obtain ⟨first, last, point⟩ := c
  cases point with
  | called =>
    have hresult : results[k]? = some 0 := hok
    simp only [Call.step, hresult]
    exact ⟨_, rfl⟩
  | adding pos init =>
    obtain ⟨-, hlast, -, hsome⟩ := hok
    by_cases hend : pos = last
    · have hk : k < results.length := by simpa using hsome
      simp only [Call.step, hend, ne_eq, not_true_eq_false, if_false, if_pos hk]
      exact ⟨_, rfl⟩
    · have hlt : pos < xs.length := Nat.lt_of_lt_of_le (Nat.lt_of_le_of_ne hlast hend) hle
      simp only [Call.step, ne_eq, hend, not_false_eq_true, if_true, List.getElem?_eq_getElem hlt]
      exact ⟨_, rfl⟩
  | returned => exact absurd trivial hrun

-- ---------------------------------------------------------------------------
-- The invariant
-- ---------------------------------------------------------------------------

/-- At the head of the loop that starts the threads. -/
structure Starting (xs : List T) (hardware_threads : Nat) (s : State T)
    (block_size i block_start : Nat) : Prop where
  size : blockSize xs.length hardware_threads = some block_size
  lt : i < numThreads xs.length hardware_threads
  start : block_start = i * block_size
  covers : Covers 0 (s.calls.map Call.range) block_start
  calls : s.calls.length = i
  results : s.results.length = numThreads xs.length hardware_threads
  zero : ∀ k, i ≤ k → k < numThreads xs.length hardware_threads → s.results[k]? = some 0

/-- `advance` stays in the range. -/
theorem Starting.bound (h : Starting xs hardware_threads s block_size i block_start) :
    block_start + block_size ≤ xs.length := by
  obtain ⟨-, -, hle⟩ := blockSize_eq h.size
  calc block_start + block_size = (i + 1) * block_size := by rw [h.start, Nat.succ_mul]
    _ ≤ numThreads xs.length hardware_threads * block_size := Nat.mul_le_mul_right _ h.lt
    _ ≤ xs.length := hle

/-- All calls have been made. -/
structure Started (xs : List T) (hardware_threads : Nat) (s : State T) : Prop where
  pos : 0 < numThreads xs.length hardware_threads
  covers : Covers 0 (s.calls.map Call.range) xs.length
  calls : s.calls.length = numThreads xs.length hardware_threads
  results : s.results.length = numThreads xs.length hardware_threads

def MainOk (xs : List T) (hardware_threads : Nat) (init : T) (s : State T) : Prop :=
  let num_threads := numThreads xs.length hardware_threads
  match s.main with
  | .entry => s.calls = []
  | .start block_size i block_start => Starting xs hardware_threads s block_size i block_start
  | .own => Started xs hardware_threads s
  | .join i => Started xs hardware_threads s ∧ i < num_threads ∧ s.Returned (num_threads - 1) ∧
      ∀ k < i, s.Returned k
  | .sum i acc => Started xs hardware_threads s ∧ (∀ k < num_threads, s.Returned k) ∧
      i ≤ num_threads ∧ acc = init + (s.results.take i).sum
  | .returned v => Covers 0 (s.calls.map Call.range) xs.length ∧ v = accumulate xs init

structure Inv (xs : List T) (hardware_threads : Nat) (init : T) (s : State T) : Prop where
  calls : ∀ (k : Nat) (c : Call T), s.calls[k]? = some c → c.Ok xs s.results[k]?
  main : MainOk xs hardware_threads init s

theorem Inv.covers (h : Inv xs hardware_threads init s) :
    ∃ m ≤ xs.length, Covers 0 (s.calls.map Call.range) m := by
  obtain ⟨main, results, calls⟩ := s
  have hmain := h.main
  cases main with
  | entry =>
    obtain rfl : calls = [] := hmain
    exact ⟨0, Nat.zero_le _, .nil⟩
  | start block_size i block_start =>
    have hstart : Starting xs hardware_threads _ block_size i block_start := hmain
    exact ⟨block_start, Nat.le_trans (Nat.le_add_right _ _) hstart.bound, hstart.covers⟩
  | own => exact ⟨_, Nat.le_refl _, Started.covers hmain⟩
  | join i => exact ⟨_, Nat.le_refl _, hmain.1.covers⟩
  | sum i acc => exact ⟨_, Nat.le_refl _, hmain.1.covers⟩
  | returned v => exact ⟨_, Nat.le_refl _, hmain.1⟩

theorem Inv.bounds (h : Inv xs hardware_threads init s) (hk : s.calls[k]? = some c) :
    c.first ≤ c.last ∧ c.last ≤ xs.length := by
  obtain ⟨m, hm, hcovers⟩ := h.covers
  obtain ⟨-, hlt, hle⟩ := hcovers.bounds (List.mem_map_of_mem (List.mem_of_getElem? hk))
  exact ⟨Nat.le_of_lt hlt, Nat.le_trans hle hm⟩

-- ---------------------------------------------------------------------------
-- A call moves
-- ---------------------------------------------------------------------------

theorem Starting.call (h : Starting xs hardware_threads s block_size i block_start)
    (hk : s.calls[k]? = some c) (hc : c.Stepped xs s.results k c' results') :
    Starting xs hardware_threads ⟨s.main, results', s.calls.set k c'⟩ block_size i block_start where
  size := h.size
  lt := h.lt
  start := h.start
  covers := by
    rw [map_range_set hk hc.range]
    exact h.covers
  calls := List.length_set.trans h.calls
  results := hc.length.trans h.results
  zero := by
    intro j hij hj
    have hlt : k < i := h.calls ▸ (List.getElem?_eq_some_iff.mp hk).1
    exact (hc.others j (by omega)).trans (h.zero j hij hj)

theorem Started.call (h : Started xs hardware_threads s) (hk : s.calls[k]? = some c)
    (hc : c.Stepped xs s.results k c' results') :
    Started xs hardware_threads ⟨s.main, results', s.calls.set k c'⟩ where
  pos := h.pos
  covers := by
    rw [map_range_set hk hc.range]
    exact h.covers
  calls := List.length_set.trans h.calls
  results := hc.length.trans h.results

theorem MainOk.call (h : MainOk xs hardware_threads init s) (hk : s.calls[k]? = some c)
    (hc : c.Stepped xs s.results k c' results') :
    MainOk xs hardware_threads init ⟨s.main, results', s.calls.set k c'⟩ := by
  obtain ⟨main, results, calls⟩ := s
  cases main with
  | entry =>
    obtain rfl : calls = [] := h
    cases hk
  | start block_size i block_start => exact Starting.call h hk hc
  | own => exact Started.call h hk hc
  | join i =>
    obtain ⟨hstarted, hi, hown, hjoined⟩ := h
    exact ⟨hstarted.call hk hc, hi, hown.set (not_returned hk hc.running hown),
      fun j hj => (hjoined j hj).set (not_returned hk hc.running (hjoined j hj))⟩
  | sum i acc =>
    obtain ⟨hstarted, hall, -⟩ := h
    have hlt : k < numThreads xs.length hardware_threads :=
      hstarted.calls ▸ (List.getElem?_eq_some_iff.mp hk).1
    exact absurd rfl (not_returned hk hc.running (hall k hlt))
  | returned v =>
    refine ⟨?_, h.2⟩
    rw [map_range_set hk hc.range]
    exact h.1

theorem stepCall_eq (h : Inv xs hardware_threads init s) (hstep : stepCall xs s k = some s') :
    ∃ c c' results', s.calls[k]? = some c ∧ c.Stepped xs s.results k c' results' ∧
      s' = ⟨s.main, results', s.calls.set k c'⟩ := by
  simp only [stepCall, Option.bind_eq_some_iff, Option.map_eq_some_iff] at hstep
  obtain ⟨c, hk, ⟨c', results'⟩, hc, rfl⟩ := hstep
  exact ⟨c, c', results', hk, Call.stepped (h.calls k c hk) (h.bounds hk).1 hc, rfl⟩

theorem Inv.call (h : Inv xs hardware_threads init s) (hstep : stepCall xs s k = some s') :
    Inv xs hardware_threads init s' := by
  obtain ⟨c, c', results', hk, hc, rfl⟩ := stepCall_eq h hstep
  refine ⟨fun j d hd => ?_, h.main.call hk hc⟩
  by_cases hj : j = k
  · subst hj
    rw [List.getElem?_set_self (List.getElem?_eq_some_iff.mp hk).1] at hd
    cases hd
    exact hc.ok
  · rw [List.getElem?_set_ne (Ne.symm hj)] at hd
    show d.Ok xs results'[j]?
    rw [hc.others j hj]
    exact h.calls j d hd

-- ---------------------------------------------------------------------------
-- The caller moves
-- ---------------------------------------------------------------------------

/-- A new call, for a result that is still `T()`. -/
theorem calls_append {first last : Nat}
    (h : ∀ (k : Nat) (c : Call T), s.calls[k]? = some c → c.Ok xs s.results[k]?)
    (hzero : s.results[s.calls.length]? = some 0) (k : Nat) (c : Call T)
    (hk : (s.calls ++ [⟨first, last, .called⟩])[k]? = some c) : c.Ok xs s.results[k]? := by
  rcases Nat.lt_trichotomy k s.calls.length with hlt | rfl | hgt
  · rw [List.getElem?_append_left hlt] at hk
    exact h k c hk
  · rw [List.getElem?_concat_length] at hk
    cases hk
    exact hzero
  · rw [List.getElem?_eq_none (by simp; omega)] at hk
    cases hk

/-- The end of the loop: `i = num_threads - 1`. -/
theorem Starting.last (h : Starting xs hardware_threads s block_size i block_start)
    (hi : ¬ i < numThreads xs.length hardware_threads - 1) :
    Started xs hardware_threads
      ⟨.own, s.results, s.calls ++ [⟨block_start, xs.length, .called⟩]⟩ := by
  obtain ⟨hpos, hone, hle⟩ := blockSize_eq h.size
  have hlt := h.lt
  have hstart : block_start < xs.length := by
    rw [h.start]
    exact Nat.lt_of_lt_of_le (Nat.mul_lt_mul_of_pos_right hlt hone) hle
  refine ⟨hpos, ?_, ?_, h.results⟩
  · rw [List.map_append]
    exact h.covers.snoc hstart
  · rw [List.length_append, h.calls, List.length_singleton]
    omega

theorem Starting.next (h : Starting xs hardware_threads s block_size i block_start)
    (hi : i < numThreads xs.length hardware_threads - 1) :
    Starting xs hardware_threads ⟨main, s.results,
      s.calls ++ [⟨block_start, block_start + block_size, .called⟩]⟩ block_size (i + 1)
      (block_start + block_size) where
  size := h.size
  lt := by omega
  start := by rw [h.start, Nat.succ_mul]
  covers := by
    rw [List.map_append]
    exact h.covers.snoc (Nat.lt_add_of_pos_right (blockSize_eq h.size).2.1)
  calls := by rw [List.length_append, h.calls, List.length_singleton]
  results := h.results
  zero := fun k hik hk => h.zero k (by omega) hk

theorem Starting.next_zero (h : Starting xs hardware_threads s block_size i block_start) :
    s.results[s.calls.length]? = some 0 :=
  h.zero _ (Nat.le_of_eq h.calls.symm) (h.calls ▸ h.lt)

/-- When all calls have returned, the results are the sums of the blocks. -/
theorem Started.sum (h : Started xs hardware_threads s)
    (hcalls : ∀ (k : Nat) (c : Call T), s.calls[k]? = some c → c.Ok xs s.results[k]?)
    (hall : ∀ k < numThreads xs.length hardware_threads, s.Returned k) :
    s.results.sum = xs.sum := by
  have hresults : s.results = (s.calls.map Call.range).map fun block => (slice xs block).sum := by
    refine List.ext_getElem? fun k => ?_
    by_cases hk : k < numThreads xs.length hardware_threads
    · obtain ⟨c, hc, hret⟩ := hall k hk
      have hok := hcalls k c hc
      rw [Call.Ok, hret.eq] at hok
      rw [Option.mem_def] at hc
      simp [hc, hok]
    · rw [List.getElem?_eq_none (by rw [h.results]; omega),
        List.getElem?_eq_none (by rw [List.length_map, List.length_map, h.calls]; omega)]
  rw [hresults, h.covers.sum, slice_all]

/-- What `parallel_accumulate` does next, branch by branch. -/
inductive MainStep (xs : List T) (hardware_threads : Nat) (init : T) : State T → State T → Prop
  | empty {results : List T} {calls : List (Call T)} : xs = [] →
      MainStep xs hardware_threads init ⟨.entry, results, calls⟩ ⟨.returned init, results, calls⟩
  | divide {results : List T} {calls : List (Call T)} {block_size : Nat} : xs.length ≠ 0 →
      blockSize xs.length hardware_threads = some block_size →
      MainStep xs hardware_threads init ⟨.entry, results, calls⟩
        ⟨.start block_size 0 0, List.replicate (numThreads xs.length hardware_threads) 0, calls⟩
  | thread {results : List T} {calls : List (Call T)} {block_size i block_start : Nat} :
      i < numThreads xs.length hardware_threads - 1 → block_start + block_size ≤ xs.length →
      MainStep xs hardware_threads init ⟨.start block_size i block_start, results, calls⟩
        ⟨.start block_size (i + 1) (block_start + block_size), results,
          calls ++ [⟨block_start, block_start + block_size, .called⟩]⟩
  | last {results : List T} {calls : List (Call T)} {block_size i block_start : Nat} :
      ¬ i < numThreads xs.length hardware_threads - 1 →
      MainStep xs hardware_threads init ⟨.start block_size i block_start, results, calls⟩
        ⟨.own, results, calls ++ [⟨block_start, xs.length, .called⟩]⟩
  | owned {results : List T} {calls : List (Call T)} :
      State.Returned ⟨.own, results, calls⟩ (numThreads xs.length hardware_threads - 1) →
      MainStep xs hardware_threads init ⟨.own, results, calls⟩ ⟨.join 0, results, calls⟩
  | joined {results : List T} {calls : List (Call T)} {i : Nat} :
      i < numThreads xs.length hardware_threads - 1 → State.Returned ⟨.join i, results, calls⟩ i →
      MainStep xs hardware_threads init ⟨.join i, results, calls⟩ ⟨.join (i + 1), results, calls⟩
  | allJoined {results : List T} {calls : List (Call T)} {i : Nat} :
      ¬ i < numThreads xs.length hardware_threads - 1 →
      MainStep xs hardware_threads init ⟨.join i, results, calls⟩ ⟨.sum 0 init, results, calls⟩
  | add {results : List T} {calls : List (Call T)} {i : Nat} {acc result : T} :
      results[i]? = some result → MainStep xs hardware_threads init ⟨.sum i acc, results, calls⟩
        ⟨.sum (i + 1) (acc + result), results, calls⟩
  | done {results : List T} {calls : List (Call T)} {i : Nat} {acc : T} : results[i]? = none →
      MainStep xs hardware_threads init ⟨.sum i acc, results, calls⟩ ⟨.returned acc, results, calls⟩

theorem mainStep_of_stepMain (hstep : stepMain xs hardware_threads init s = some s') :
    MainStep xs hardware_threads init s s' := by
  obtain ⟨main, results, calls⟩ := s
  cases main with
  | entry =>
    simp only [stepMain] at hstep
    split at hstep
    · rename_i hlen
      cases hstep
      exact .empty (List.eq_nil_of_length_eq_zero hlen)
    · rename_i hlen
      obtain ⟨block_size, hsize, rfl⟩ := Option.map_eq_some_iff.mp hstep
      exact .divide hlen hsize
  | start block_size i block_start =>
    simp only [stepMain] at hstep
    split at hstep
    · rename_i hi
      simp only [Option.ite_none_right_eq_some, Option.some.injEq] at hstep
      obtain ⟨hle, rfl⟩ := hstep
      exact .thread hi hle
    · rename_i hi
      cases hstep
      exact .last hi
  | own =>
    simp only [stepMain, Option.ite_none_right_eq_some, Option.some.injEq] at hstep
    obtain ⟨hown, rfl⟩ := hstep
    exact .owned hown
  | join i =>
    simp only [stepMain] at hstep
    split at hstep
    · rename_i hi
      simp only [Option.ite_none_right_eq_some, Option.some.injEq] at hstep
      obtain ⟨hret, rfl⟩ := hstep
      exact .joined hi hret
    · rename_i hi
      cases hstep
      exact .allJoined hi
  | sum i acc =>
    simp only [stepMain] at hstep
    split at hstep
    · rename_i result hresult
      cases hstep
      exact .add hresult
    · rename_i hend
      cases hstep
      exact .done hend
  | returned v => cases hstep

theorem Inv.main_step (h : Inv xs hardware_threads init s)
    (hstep : MainStep xs hardware_threads init s s') : Inv xs hardware_threads init s' := by
  have hmain := h.main
  cases hstep with
  | empty hxs =>
    obtain rfl : _ = [] := hmain
    subst hxs
    exact ⟨h.calls, .nil, rfl⟩
  | divide hlen hsize =>
    obtain rfl : _ = [] := hmain
    exact ⟨nofun, hsize, numThreads_pos hlen, (Nat.zero_mul _).symm, .nil, rfl,
      List.length_replicate, fun k _ hk => by rw [List.getElem?_replicate, if_pos hk]⟩
  | thread hi _ =>
    have hstart : Starting _ _ _ _ _ _ := hmain
    exact ⟨calls_append h.calls hstart.next_zero, hstart.next hi⟩
  | last hi =>
    have hstart : Starting _ _ _ _ _ _ := hmain
    exact ⟨calls_append h.calls hstart.next_zero, hstart.last hi⟩
  | owned hown =>
    have hstarted : Started _ _ _ := hmain
    exact ⟨h.calls, ⟨hstarted.pos, hstarted.covers, hstarted.calls, hstarted.results⟩, hstarted.pos,
      hown, nofun⟩
  | joined hlt hret =>
    obtain ⟨⟨hpos, hcovers, hlen, hresults⟩, hi, hown, hjoined⟩ := hmain
    refine ⟨h.calls, ⟨hpos, hcovers, hlen, hresults⟩, by omega, hown, fun k hk => ?_⟩
    rcases Nat.lt_succ_iff_lt_or_eq.mp hk with hk | rfl
    · exact hjoined k hk
    · exact hret
  | allJoined hlast =>
    obtain ⟨⟨hpos, hcovers, hlen, hresults⟩, hi, hown, hjoined⟩ := hmain
    refine ⟨h.calls, ⟨hpos, hcovers, hlen, hresults⟩, fun k hk => ?_, Nat.zero_le _,
      (add_zero init).symm⟩
    rcases Nat.lt_or_eq_of_le (Nat.le_sub_one_of_lt hk) with hk | rfl
    · exact hjoined k (by omega)
    · exact hown
  | @add results calls i acc result hresult =>
    obtain ⟨⟨hpos, hcovers, hlen, hresults⟩, hall, hi, hacc⟩ := hmain
    have hlt : i < results.length := (List.getElem?_eq_some_iff.mp hresult).1
    refine ⟨h.calls, ⟨hpos, hcovers, hlen, hresults⟩, hall, hresults ▸ hlt, ?_⟩
    show acc + result = init + (results.take (i + 1)).sum
    rw [List.take_add_one, hresult, Option.toList_some, List.sum_append, List.sum_singleton, hacc,
      add_assoc]
  | @done results calls i acc hend =>
    obtain ⟨⟨hpos, hcovers, hlen, hresults⟩, hall, hi, hacc⟩ := hmain
    refine ⟨h.calls, hcovers, ?_⟩
    have htake : results.take i = results :=
      List.take_of_length_le (List.getElem?_eq_none_iff.mp hend)
    have hsum := Started.sum (s := ⟨.sum i acc, results, calls⟩)
      ⟨hpos, hcovers, hlen, hresults⟩ h.calls hall
    calc acc = init + (results.take i).sum := hacc
      _ = init + results.sum := by rw [htake]
      _ = init + xs.sum := by rw [hsum]
      _ = accumulate xs init := (foldl_add xs init).symm

theorem Inv.step (h : Inv xs hardware_threads init s)
    (hstep : (system xs hardware_threads init).step s a = some s') :
    Inv xs hardware_threads init s' := by
  cases a with
  | main => exact h.main_step (mainStep_of_stepMain hstep)
  | call k => exact h.call hstep

-- ---------------------------------------------------------------------------
-- Every run ends
-- ---------------------------------------------------------------------------

/-- The budget of a pass of the first loop. -/
theorem pass_cost {num_threads : Nat} (hi : i < num_threads) (length : Nat) :
    (num_threads - i) * (length + 3) = (num_threads - (i + 1)) * (length + 3) + (length + 3) := by
  rw [← Nat.succ_mul]
  congr 1
  omega

theorem Inv.cost_main (h : Inv xs hardware_threads init s)
    (hstep : MainStep xs hardware_threads init s s') :
    s'.cost xs.length (numThreads xs.length hardware_threads) <
      s.cost xs.length (numThreads xs.length hardware_threads) := by
  have hmain := h.main
  cases hstep with
  | empty | owned | allJoined | done =>
    simp only [State.cost, Main.cost]
    omega
  | divide =>
    simp only [State.cost, Main.cost, Nat.sub_zero]
    omega
  | thread | last =>
    have hpass := pass_cost (Starting.lt hmain) xs.length
    simp only [State.cost, Main.cost, cost_append, hpass]
    omega
  | joined hi =>
    simp only [State.cost, Main.cost]
    omega
  | @add results _ i _ _ hresult =>
    have hlt : i < results.length := (List.getElem?_eq_some_iff.mp hresult).1
    have hlen : results.length = numThreads xs.length hardware_threads := hmain.1.results
    simp only [State.cost, Main.cost]
    omega

theorem Inv.cost_lt (h : Inv xs hardware_threads init s)
    (hstep : (system xs hardware_threads init).step s a = some s') :
    s'.cost xs.length (numThreads xs.length hardware_threads) <
      s.cost xs.length (numThreads xs.length hardware_threads) := by
  cases a with
  | main => exact h.cost_main (mainStep_of_stepMain hstep)
  | call k =>
    obtain ⟨c, c', results', hk, hc, rfl⟩ := stepCall_eq h hstep
    exact Nat.add_lt_add_left (sum_cost_set hk hc.cost) _

theorem Inv.run_ends (h : Inv xs hardware_threads init s)
    (hrun : (system xs hardware_threads init).exec s as = some s') :
    as.length ≤ s.cost xs.length (numThreads xs.length hardware_threads) :=
  Nat.le_of_add_right_le <| length_le_of_measure
    (fun _ _ _ hs hstep => Inv.cost_lt hs hstep) (fun _ _ _ hs hstep => hs.step hstep) h hrun

-- ---------------------------------------------------------------------------
-- No state but the last is stuck
-- ---------------------------------------------------------------------------

theorem Inv.call_moves (h : Inv xs hardware_threads init s) (hk : k < s.calls.length) :
    s.Returned k ∨ ∃ s', (system xs hardware_threads init).step s (.call k) = some s' := by
  have hc : s.calls[k]? = some s.calls[k] := List.getElem?_eq_getElem hk
  by_cases hret : s.calls[k].point.Returned
  · exact .inl ⟨_, hc, hret⟩
  · obtain ⟨r, hr⟩ := Call.exists_step (h.calls k _ hc) (h.bounds hc).2 hret
    refine .inr ⟨{ s with results := r.2, calls := s.calls.set k r.1 }, ?_⟩
    show stepCall xs s k = _
    rw [stepCall, hc, Option.bind_some, hr, Option.map_some]

theorem Inv.main_moves (h : Inv xs hardware_threads init s) : (∃ v, s.main = .returned v) ∨
    (∃ s', stepMain xs hardware_threads init s = some s') ∨
    ∃ k < s.calls.length, s.awaits (numThreads xs.length hardware_threads) = some k ∧
      ¬ s.Returned k := by
  obtain ⟨main, results, calls⟩ := s
  have hmain := h.main
  cases main with
  | entry =>
    refine .inr (.inl ?_)
    by_cases hlen : xs.length = 0
    · simp only [stepMain, if_pos hlen]
      exact ⟨_, rfl⟩
    · obtain ⟨block_size, hsize⟩ : ∃ block_size, blockSize xs.length hardware_threads =
          some block_size := blockSize_of_ne hlen
      simp only [stepMain, if_neg hlen, hsize]
      exact ⟨_, rfl⟩
  | start block_size i block_start =>
    refine .inr (.inl ?_)
    have hstart : Starting xs hardware_threads _ block_size i block_start := hmain
    by_cases hi : i < numThreads xs.length hardware_threads - 1
    · simp only [stepMain, if_pos hi, if_pos hstart.bound]
      exact ⟨_, rfl⟩
    · simp only [stepMain, if_neg hi]
      exact ⟨_, rfl⟩
  | own =>
    have hstarted : Started xs hardware_threads _ := hmain
    by_cases hret :
        State.Returned ⟨.own, results, calls⟩ (numThreads xs.length hardware_threads - 1)
    · simp only [stepMain, if_pos hret]
      exact .inr (.inl ⟨_, rfl⟩)
    · exact .inr (.inr ⟨_, Nat.lt_of_lt_of_eq (Nat.sub_one_lt_of_lt hstarted.pos)
        hstarted.calls.symm, rfl, hret⟩)
  | join i =>
    obtain ⟨hstarted, hi, -⟩ := hmain
    by_cases hlt : i < numThreads xs.length hardware_threads - 1
    · by_cases hret : State.Returned ⟨.join i, results, calls⟩ i
      · simp only [stepMain, if_pos hlt, if_pos hret]
        exact .inr (.inl ⟨_, rfl⟩)
      · exact .inr (.inr ⟨i, Nat.lt_of_lt_of_eq hi hstarted.calls.symm, rfl, hret⟩)
    · simp only [stepMain, if_neg hlt]
      exact .inr (.inl ⟨_, rfl⟩)
  | sum i acc =>
    refine .inr (.inl ?_)
    cases hresult : results[i]? with
    | none =>
      simp only [stepMain, hresult]
      exact ⟨_, rfl⟩
    | some result =>
      simp only [stepMain, hresult]
      exact ⟨_, rfl⟩
  | returned v => exact .inl ⟨v, rfl⟩

theorem Inv.value (h : Inv xs hardware_threads init s) (hv : s.main = .returned v) :
    v = accumulate xs init := by
  have hmain := h.main
  rw [MainOk, hv] at hmain
  exact hmain.2

theorem Inv.exists_step (h : Inv xs hardware_threads init s)
    (hnot : s.main ≠ .returned (accumulate xs init)) :
    ∃ a s', (system xs hardware_threads init).step s a = some s' := by
  rcases h.main_moves with ⟨v, hv⟩ | ⟨s', hstep⟩ | ⟨k, hk, -, hret⟩
  · exact absurd (h.value hv ▸ hv) hnot
  · exact ⟨.main, s', hstep⟩
  · obtain ⟨s', hstep⟩ := (h.call_moves hk).resolve_left hret
    exact ⟨.call k, s', hstep⟩

theorem reachable_inv (h : (system xs hardware_threads init).Reachable anyStep s) :
    Inv xs hardware_threads init s :=
  h.invariant ⟨nofun, rfl⟩ fun _ _ _ hs _ hstep => hs.step hstep

theorem parallel_accumulate_correct (xs : List T) (hardware_threads : Nat) (init : T) (s : State T)
    (h : (system xs hardware_threads init).Reachable anyStep s) :
    Correct xs hardware_threads init s where
  value := fun _ hv => (reachable_inv h).value hv
  divides := by
    rcases List.eq_nil_or_concat xs with rfl | hne
    · exact .inl rfl
    · have hlen : xs.length ≠ 0 := by
        obtain ⟨ys, x, rfl⟩ := hne
        simp
      obtain ⟨block_size, hsize⟩ := blockSize_of_ne hlen
      obtain ⟨hpos, hone, -⟩ := blockSize_eq hsize
      exact .inr ⟨hpos, block_size, hsize, hone⟩
  blocks := (reachable_inv h).covers
  partitions := by
    intro v hv
    have hmain := (reachable_inv h).main
    rw [MainOk, hv] at hmain
    exact hmain.1
  moves := (reachable_inv h).main_moves
  defined := fun _ hk => (reachable_inv h).call_moves hk
  completes := exists_exec_of_measure (P := Inv xs hardware_threads init)
    (fun _ _ _ hs hstep => hs.cost_lt hstep) (fun _ _ _ hs hstep => hs.step hstep)
    (fun _ hs hnot => hs.exists_step hnot) (reachable_inv h)
  ends := ⟨_, fun _ _ hrun => (reachable_inv h).run_ends hrun⟩

/-- Two blocks of 13, the second one added up first. -/
theorem parallel_accumulate_two : ∃ s : State Nat,
    s.main = .returned 425 ∧ Correct (List.range 26) 0 100 s := by
  obtain ⟨s, hs, hend⟩ := reachable_of_exec (system (List.range 26) 0 100)
    (List.replicate 3 .main ++ List.replicate 15 (.call 1) ++ List.replicate 15 (.call 0) ++
      List.replicate 6 .main)
    (fun s => s.main == .returned 425) (by decide +kernel)
  exact ⟨s, eq_of_beq hend, parallel_accumulate_correct _ _ _ s hs⟩

end DdsAuto.Concurrent.ParallelAccumulate
