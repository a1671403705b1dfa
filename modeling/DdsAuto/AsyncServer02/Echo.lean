import DdsAuto.Lib.CInt
import DdsAuto.Lib.Lts
import DdsAuto.Lib.Memory
import DdsAuto.Lib.Outgoing

/-!
# The echo of AsyncServer02

`Send` queues a copy of what was read but hands `m_data` itself to
`async_write`, and `HandleRead` goes on to clear `m_data` and to arm the next
read into it. A queued node's `m_max_len` is never set. One thread runs the
handlers; in between, and between the statements of `HandleRead`, the socket
takes bytes from the buffer of a write and puts received bytes into `m_data`.
-/

namespace DdsAuto.AsyncServer02

open CInt Memory Lts

/-- `MAX_LENGTH`. -/
abbrev maxLength : Nat := 1024

/-- `mMaxLen` is whatever the allocation left there. -/
structure MsgNoe where
  mMaxLen : Int
  mData : List UInt8
  deriving DecidableEq, Repr

/-- The memory a write was given: the session's `m_data` or a node's block. -/
inductive Buffer
  | mData
  | node (block : List UInt8)
  deriving DecidableEq, Repr

/-- An `async_write` that has not completed; `sent` of its `len` bytes are out. -/
structure Write where
  buffer : Buffer
  len : Nat
  sent : Nat
  deriving DecidableEq, Repr

/-- Where the session's one read is: armed, done with `n` bytes, or in
`HandleRead` after `Send` or after the `memset`. -/
inductive Read
  | armed
  | filled (n : Nat)
  | sent
  | cleared
  deriving DecidableEq, Repr

/-- `received` and `wire` are what the peer has sent and got. -/
structure State where
  mData : List UInt8
  read : Read
  mSendQueue : List MsgNoe
  writes : List Write
  received : List (List UInt8)
  wire : List UInt8

def State.block (s : State) : Buffer → List UInt8
  | .mData => s.mData
  | .node block => block

/-- `Send(m_data, max_length)`; `garbage` is left in the new node's `m_max_len`. -/
def send (s : State) (maxLength : Nat) (garbage : Int) : State :=
  let node : MsgNoe := ⟨garbage, load s.mData 0 maxLength⟩
  let writes :=
    if s.mSendQueue.length > 0 then s.writes else s.writes ++ [⟨.mData, maxLength, 0⟩]
  { s with mSendQueue := s.mSendQueue ++ [node], writes := writes }

/-- `HandleWrite` for the completed write at `i`. -/
def handleWrite (s : State) (i : Nat) : State :=
  let writes := s.writes.eraseIdx i
  match s.mSendQueue.tail with
  | [] => { s with mSendQueue := [], writes := writes }
  | msgnode :: rest => { s with
      mSendQueue := msgnode :: rest
      writes := writes ++ [⟨.node msgnode.mData, toSizeT msgnode.mMaxLen, 0⟩] }

/-- `receive` and `transmit` are the socket's, the others the program's. -/
inductive Label
  | receive (chunk : List UInt8)
  | send (garbage : Int)
  | memset
  | arm
  | transmit (i n : Nat)
  | handleWrite (i : Nat)

def step (s : State) : Label → Option State
  | .receive chunk =>
    if s.read = .armed ∧ chunk ≠ [] ∧ chunk.length ≤ maxLength then
      some { s with
        mData := store s.mData 0 chunk
        read := .filled chunk.length
        received := s.received ++ [chunk] }
    else none
  | .send garbage =>
    match s.read with
    | .filled n => some { send s n garbage with read := .sent }
    | _ => none
  | .memset =>
    if s.read = .sent then
      some { s with mData := List.replicate maxLength 0, read := .cleared }
    else none
  | .arm => if s.read = .cleared then some { s with read := .armed } else none
  | .transmit i n =>
    match s.writes[i]? with
    | some w =>
      if 0 < n ∧ w.sent + n ≤ w.len then
        some { s with
          writes := s.writes.set i { w with sent := w.sent + n }
          wire := s.wire ++ load (s.block w.buffer) w.sent n }
      else none
    | none => none
  | .handleWrite i =>
    match s.writes[i]? with
    | some w =>
      -- no handler runs while `HandleRead` does
      if w.sent = w.len ∧ s.read ≠ .sent ∧ s.read ≠ .cleared then some (handleWrite s i) else none
    | none => none

attribute [local simp] step

/-- `Start` has cleared `m_data` and armed the first read. -/
def system : Lts State Label where
  init := ⟨List.replicate maxLength 0, .armed, [], [], [], []⟩
  step := step

/-- The peer gets what was received, in order, and all of it where no write is
outstanding and no chunk waits for `HandleRead`. -/
structure Exact (s : State) : Prop where
  one : s.writes.length ≤ 1
  inOrder : s.wire <+: s.received.flatten
  all : s.writes = [] → (∀ n, s.read ≠ .filled n) → s.wire = s.received.flatten

/-- `m_data` is not cleared while a write still takes bytes from it, and a node
that is written from the queue has its length in `m_max_len`. -/
def KeepsBuffers (s : State) : Label → Prop
  | .memset => ∀ w ∈ s.writes, w.buffer = .mData → w.sent = w.len
  | .handleWrite _ => ∀ node ∈ s.mSendQueue.tail.head?, toSizeT node.mMaxLen = node.mData.length
  | _ => True

instance (s : State) : ∀ a, Decidable (KeepsBuffers s a)
  | .memset => inferInstanceAs (Decidable (∀ w ∈ s.writes, w.buffer = .mData → w.sent = w.len))
  | .handleWrite _ => inferInstanceAs
      (Decidable (∀ node ∈ s.mSendQueue.tail.head?, toSizeT node.mMaxLen = node.mData.length))
  | .receive _ | .send _ | .arm | .transmit _ _ => inferInstanceAs (Decidable True)

-- ---------------------------------------------------------------------------
-- The invariant
-- ---------------------------------------------------------------------------

variable {s s' : State} {w : Write} {m : List UInt8} {a : Label}

/-- What `w` has left to take from its buffer is what is left of `m`. A write
from `m_data` has nothing left once `m_data` is cleared. -/
structure Feeds (s : State) (w : Write) (m : List UInt8) : Prop where
  len : w.len = m.length
  buffer : w.buffer = .node m ∨ w.buffer = .mData ∧
    (w.sent = w.len ∨ s.read = .sent ∧ load s.mData 0 w.len = m)

/-- The chunk that waits for `HandleRead`. -/
def State.waiting (s : State) : List (List UInt8) :=
  match s.read with
  | .filled n => [load s.mData 0 n]
  | _ => []

theorem waiting_filled (h : s.read = .filled n) : s.waiting = [load s.mData 0 n] := by
  simp only [State.waiting, h]

theorem waiting_nil (h : ∀ n, s.read ≠ .filled n) : s.waiting = [] := by
  unfold State.waiting
  split
  · rename_i n hread
    exact absurd hread (h n)
  · rfl

/-- `all` are the chunks `Send` has been called with. -/
structure Inv (s : State) (all : List (List UInt8)) : Prop where
  size : s.mData.length = maxLength
  received : s.received = all ++ s.waiting
  writing : s.mSendQueue = [] ∧ s.writes = [] ∨ ∃ msgnode rest w,
    s.mSendQueue = msgnode :: rest ∧ s.writes = [w] ∧ Feeds s w msgnode.mData
  out : Outgoing all (s.mSendQueue.map (·.mData)) (s.writes.head?.elim 0 (·.sent)) s.wire

theorem inv_init : Inv system.init [] :=
  ⟨List.length_replicate, rfl, .inl ⟨rfl, rfl⟩, Outgoing.init⟩

/-- Outside `HandleRead` a write from `m_data` has nothing left to take. -/
theorem Feeds.of_ne (h : Feeds s w m) (hread : s.read ≠ .sent) (t : State) : Feeds t w m := by
  refine ⟨h.len, ?_⟩
  rcases h.buffer with hnode | ⟨hdata, hdone | ⟨hsent, -⟩⟩
  · exact .inl hnode
  · exact .inr ⟨hdata, .inl hdone⟩
  · exact absurd hsent hread

theorem Feeds.bytes (h : Feeds s w m) (hn : 0 < n) (hfit : w.sent + n ≤ w.len) :
    load (s.block w.buffer) w.sent n = (m.drop w.sent).take n := by
  rw [h.len] at hfit
  rcases h.buffer with hnode | ⟨hdata, hdone | ⟨-, hload⟩⟩
  · rw [hnode]
    exact load_eq hfit
  · rw [hdone, h.len] at hfit
    exact absurd hfit (by omega)
  · rw [hdata, ← hload, h.len]
    exact (load_load s.mData hfit).symm

theorem Feeds.advance (h : Feeds s w m) (hn : 0 < n) (hfit : w.sent + n ≤ w.len)
    (hread : s'.read = s.read) (hdata : s'.mData = s.mData) :
    Feeds s' { w with sent := w.sent + n } m := by
  refine ⟨h.len, ?_⟩
  rcases h.buffer with hnode | ⟨hmem, hdone | hsent⟩
  · exact .inl hnode
  · rw [hdone] at hfit
    exact absurd hfit (by omega)
  · rw [← hread, ← hdata] at hsent
    exact .inr ⟨hmem, .inr hsent⟩

/-- What the queue and its write know of the session does not matter outside `HandleRead`. -/
theorem Inv.writing_of_ne (h : Inv s all) (hread : s.read ≠ .sent)
    (hque : s'.mSendQueue = s.mSendQueue) (hwrites : s'.writes = s.writes) :
    s'.mSendQueue = [] ∧ s'.writes = [] ∨ ∃ msgnode rest w,
      s'.mSendQueue = msgnode :: rest ∧ s'.writes = [w] ∧ Feeds s' w msgnode.mData := by
  rw [hque, hwrites]
  rcases h.writing with hidle | ⟨msgnode, rest, w, hq, hw, hfeeds⟩
  · exact .inl hidle
  · exact .inr ⟨msgnode, rest, w, hq, hw, hfeeds.of_ne hread s'⟩

theorem Inv.receive (h : Inv s all) (hstep : step s (.receive chunk) = some s') : Inv s' all := by
  simp only [step, Option.ite_none_right_eq_some, Option.some.injEq] at hstep
  obtain ⟨⟨hread, -, hlen⟩, rfl⟩ := hstep
  have hload : load (store s.mData 0 chunk) 0 chunk.length = chunk := by
    refine load_store s.mData ?_
    rw [h.size]
    exact hlen
  refine ⟨by rw [length_store, h.size], ?_, h.writing_of_ne (by simp [hread]) rfl rfl, h.out⟩
  rw [waiting_filled rfl, h.received, waiting_nil (by simp [hread]), List.append_nil, hload]

theorem Inv.send (h : Inv s all) (hstep : step s (.send garbage) = some s') :
    ∃ all', Inv s' all' := by
  simp only [step] at hstep
  split at hstep
  · rename_i n hread
    cases hstep
    have hreceived := h.received
    have hpush := h.out.push (load s.mData 0 n)
    rw [waiting_filled hread] at hreceived
    refine ⟨all ++ [load s.mData 0 n], h.size, ?_, ?_, ?_⟩
    · rw [waiting_nil (by simp), List.append_nil]
      exact hreceived
    · rcases h.writing with ⟨hq, hw⟩ | ⟨msgnode, rest, w, hq, hw, hfeeds⟩
      · refine .inr ⟨⟨garbage, load s.mData 0 n⟩, [], ⟨.mData, n, 0⟩, ?_, ?_, length_load.symm,
          .inr ⟨rfl, .inr ⟨rfl, rfl⟩⟩⟩
        · simp [AsyncServer02.send, hq]
        · simp [AsyncServer02.send, hq, hw]
      · refine .inr ⟨msgnode, rest ++ [⟨garbage, load s.mData 0 n⟩], w, ?_, ?_,
          hfeeds.of_ne (by simp [hread]) _⟩
        · simp [AsyncServer02.send, hq]
        · simp [AsyncServer02.send, hq, hw]
    · rcases h.writing with ⟨hq, hw⟩ | ⟨msgnode, rest, w, hq, hw, hfeeds⟩
      · simpa [AsyncServer02.send, hq, hw] using hpush
      · simpa [AsyncServer02.send, hq, hw] using hpush
  · cases hstep

theorem Inv.memset (h : Inv s all) (hok : KeepsBuffers s .memset)
    (hstep : step s .memset = some s') : Inv s' all := by
  simp only [step, Option.ite_none_right_eq_some, Option.some.injEq] at hstep
  obtain ⟨hread, rfl⟩ := hstep
  refine ⟨List.length_replicate, ?_, ?_, h.out⟩
  · rw [h.received, waiting_nil (by simp [hread]), waiting_nil (by simp)]
  · rcases h.writing with hidle | ⟨msgnode, rest, w, hq, hw, hfeeds⟩
    · exact .inl hidle
    · refine .inr ⟨msgnode, rest, w, hq, hw, hfeeds.len, ?_⟩
      rcases hfeeds.buffer with hnode | ⟨hdata, -⟩
      · exact .inl hnode
      · exact .inr ⟨hdata, .inl (hok w (by simp [hw]) hdata)⟩

theorem Inv.arm (h : Inv s all) (hstep : step s .arm = some s') : Inv s' all := by
  simp only [step, Option.ite_none_right_eq_some, Option.some.injEq] at hstep
  obtain ⟨hread, rfl⟩ := hstep
  refine ⟨h.size, ?_, h.writing_of_ne (by simp [hread]) rfl rfl, h.out⟩
  rw [h.received, waiting_nil (by simp [hread]), waiting_nil (by simp)]

theorem Inv.transmit (h : Inv s all) (hstep : step s (.transmit i n) = some s') : Inv s' all := by
  simp only [step] at hstep
  rcases h.writing with ⟨hq, hw⟩ | ⟨msgnode, rest, w, hq, hw, hfeeds⟩
  · simp [hw] at hstep
  · cases i with
    | succ i => simp [hw] at hstep
    | zero =>
      simp only [hw, List.getElem?_cons_zero, Option.ite_none_right_eq_some,
        Option.some.injEq] at hstep
      obtain ⟨⟨hn, hfit⟩, rfl⟩ := hstep
      have hout : Outgoing all (msgnode.mData :: rest.map (·.mData)) w.sent s.wire := by
        have hout := h.out
        rwa [hq, hw] at hout
      have hsend := Outgoing.send (n := n) hout (by rw [← hfeeds.len]; exact hfit)
      rw [← hfeeds.bytes hn hfit] at hsend
      refine ⟨h.size, h.received, .inr ⟨msgnode, rest, { w with sent := w.sent + n }, hq, rfl,
        hfeeds.advance hn hfit rfl rfl⟩, ?_⟩
      rw [hq]
      exact hsend

theorem Inv.handleWrite (h : Inv s all) (hok : KeepsBuffers s (.handleWrite i))
    (hstep : step s (.handleWrite i) = some s') : Inv s' all := by
  simp only [step] at hstep
  rcases h.writing with ⟨hq, hw⟩ | ⟨msgnode, rest, w, hq, hw, hfeeds⟩
  · simp [hw] at hstep
  · cases i with
    | succ i => simp [hw] at hstep
    | zero =>
      simp only [hw, List.getElem?_cons_zero, Option.ite_none_right_eq_some,
        Option.some.injEq] at hstep
      obtain ⟨⟨hdone, -⟩, rfl⟩ := hstep
      have hout := h.out
      rw [hq, hw] at hout
      have hpop : Outgoing all (rest.map (·.mData)) 0 s.wire := by
        refine Outgoing.pop (m := msgnode.mData) ?_
        rw [← hfeeds.len, ← hdone]
        exact hout
      simp only [KeepsBuffers, hq, List.tail_cons] at hok
      unfold AsyncServer02.handleWrite
      rw [hq, hw]
      cases rest with
      | nil => exact ⟨h.size, h.received, .inl ⟨rfl, rfl⟩, hpop⟩
      | cons next rest =>
        exact ⟨h.size, h.received, .inr ⟨next, rest, ⟨.node next.mData, toSizeT next.mMaxLen, 0⟩,
          rfl, rfl, hok next rfl, .inl rfl⟩, hpop⟩

theorem Inv.step (h : ∃ all, Inv s all) (hok : KeepsBuffers s a) (hstep : step s a = some s') :
    ∃ all, Inv s' all := by
  obtain ⟨all, h⟩ := h
  cases a with
  | receive chunk => exact ⟨all, h.receive hstep⟩
  | send garbage => exact h.send hstep
  | memset => exact ⟨all, h.memset hok hstep⟩
  | arm => exact ⟨all, h.arm hstep⟩
  | transmit i n => exact ⟨all, h.transmit hstep⟩
  | handleWrite i => exact ⟨all, h.handleWrite hok hstep⟩

theorem Inv.exact (h : Inv s all) : Exact s := by
  refine ⟨?_, ?_, fun hidle hread => ?_⟩
  · rcases h.writing with ⟨-, hw⟩ | ⟨_, _, w, -, hw, -⟩
    · simp [hw]
    · simp [hw]
  · rw [h.received, List.flatten_append]
    exact h.out.prefix_flatten.trans (List.prefix_append _ _)
  · rcases h.writing with ⟨hq, -⟩ | ⟨_, _, w, -, hw, -⟩
    · have hout := h.out
      rw [hq] at hout
      rw [h.received, waiting_nil hread, List.append_nil]
      exact hout.eq_flatten
    · rw [hidle] at hw
      cases hw

-- ---------------------------------------------------------------------------
-- Runs
-- ---------------------------------------------------------------------------

/-- The echo is exact in every run that leaves the buffers of its writes alone. -/
theorem echo_exact_of_keepsBuffers (h : system.Reachable KeepsBuffers s) : Exact s := by
  have hinv : ∃ all, Inv s all :=
    h.invariant ⟨[], inv_init⟩ fun _ _ _ hs hok hstep => Inv.step hs hok hstep
  obtain ⟨all, hinv⟩ := hinv
  exact hinv.exact

/-- Two chunks, the second of them read before the write of the first has completed. -/
theorem echo_keepsBuffers_two : ∃ s, system.Reachable KeepsBuffers s ∧
    s.received = [[7, 8], [9]] ∧ s.writes = [] ∧ Exact s := by
  obtain ⟨s, hs, hcheck⟩ := reachable_of_execIf system (fun s a => decide (KeepsBuffers s a))
    (fun _ _ hok => of_decide_eq_true hok)
    [.receive [7, 8], .send 2, .transmit 0 2, .memset, .arm, .receive [9], .send 1, .memset, .arm,
      .handleWrite 0, .transmit 0 1, .handleWrite 0]
    (fun s => s.received == [[7, 8], [9]] && s.writes.isEmpty) (by decide +kernel)
  rw [Bool.and_eq_true, beq_iff_eq, List.isEmpty_iff] at hcheck
  exact ⟨s, hs, hcheck.1, hcheck.2, echo_exact_of_keepsBuffers hs⟩

/-- One chunk of one byte: `m_data` is cleared before the socket has taken it. -/
theorem echo_sends_cleared : ¬ ∀ s, system.Reachable anyStep s → Exact s := by
  intro h
  obtain ⟨s, hs, hcheck⟩ := reachable_of_exec system
    [.receive [7], .send 0, .memset, .transmit 0 1]
    (fun s => s.wire == [0] && s.received == [[7]]) (by decide +kernel)
  rw [Bool.and_eq_true, beq_iff_eq, beq_iff_eq] at hcheck
  have hpre := (h s hs).inOrder
  rw [hcheck.1, hcheck.2] at hpre
  exact absurd hpre (by decide)

end DdsAuto.AsyncServer02
