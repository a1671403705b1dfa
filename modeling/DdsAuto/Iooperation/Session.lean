import DdsAuto.Lib.CInt
import DdsAuto.Lib.Lts
import DdsAuto.Lib.Memory
import DdsAuto.Lib.Outgoing

/-!
# `WriteToSocket` of iooperation

Every string is copied into a node of `_send_queue`. When no write is pending
the string itself is handed to `async_write_some`; `WriteCallBack` resumes a
partial write from the node and goes on with the next node. What the caller does
with its string after the call is a step of its own.
-/

namespace DdsAuto.Iooperation

open CInt Memory Lts

structure MsgNode where
  msg : List UInt8
  totalLen : Int
  curLen : Int
  deriving DecidableEq, Repr

/-- The constructor; `new char[]` throws for a negative length. -/
def MsgNode.new (msg : List UInt8) (totalLen : Int) : Option MsgNode :=
  if totalLen < 0 then none else some ⟨load msg 0 totalLen.toNat, totalLen, 0⟩

/-- The memory a write was given: the string of the caller's call `i`, or a
node's block from an offset on. -/
inductive Buffer
  | caller (i : Nat)
  | node (msg : List UInt8) (off : Int)
  deriving DecidableEq, Repr

/-- An `async_write_some` whose handler has not run; `done` is the number of
bytes it has transferred. -/
structure Write where
  buffer : Buffer
  len : Nat
  done : Option Nat
  deriving DecidableEq, Repr

/-- `boost::asio::buffer(node->msg_ + node->cur_len_, node->total_len_ - node->cur_len_)`. -/
def MsgNode.write (node : MsgNode) : Write :=
  ⟨.node node.msg node.curLen, toSizeT (node.totalLen - node.curLen), none⟩

/-- `bufs` are the strings `WriteToSocket` was called with and `memory` what is
now where they were; `wire` is what the peer has got. -/
structure State where
  bufs : List (List UInt8)
  memory : List (List UInt8)
  sendQueue : List MsgNode
  sendPending : Bool
  writes : List Write
  wire : List UInt8

def State.load (s : State) (n : Nat) : Buffer → List UInt8
  | .caller i => Memory.load (s.memory.getD i []) 0 n
  | .node msg off => Memory.load msg off n

/-- `WriteToSocket` from the node on. -/
def enqueue (s : State) (buf : List UInt8) (node : MsgNode) : State where
  bufs := s.bufs ++ [buf]
  memory := s.memory ++ [buf]
  sendQueue := s.sendQueue ++ [node]
  sendPending := true
  writes :=
    if s.sendPending then s.writes else s.writes ++ [⟨.caller s.memory.length, buf.length, none⟩]
  wire := s.wire

def writeToSocket (s : State) (buf : List UInt8) : State :=
  match MsgNode.new buf (toInt buf.length) with
  | none => { s with bufs := s.bufs ++ [buf], memory := s.memory ++ [buf] }
  | some node => enqueue s buf node

/-- `WriteCallBack` with no error, for the write at `i`. -/
def writeCallBack (s : State) (i bytesTransferred : Nat) : State :=
  let writes := s.writes.eraseIdx i
  match s.sendQueue with
  | [] => s
  | front :: rest =>
    let sendData := { front with curLen := toInt (front.curLen + bytesTransferred) }
    if sendData.curLen < sendData.totalLen then
      { s with sendQueue := sendData :: rest, writes := writes ++ [sendData.write] }
    else
      match rest with
      | [] => { s with sendQueue := [], writes := writes, sendPending := false }
      | next :: rest => { s with
          sendQueue := next :: rest
          writes := writes ++ [next.write] }

/-- `overwrite` is the caller's, destroying its string included; `transmit` is
the socket's. -/
inductive Label
  | writeToSocket (buf : List UInt8)
  | overwrite (i : Nat) (content : List UInt8)
  | transmit (i n : Nat)
  | writeCallBack (i : Nat)

def step (s : State) : Label → Option State
  | .writeToSocket buf => if buf ≠ [] then some (writeToSocket s buf) else none
  | .overwrite i content =>
    if content.length = (s.memory.getD i []).length then
      some { s with memory := s.memory.set i content }
    else none
  | .transmit i n =>
    match s.writes[i]? with
    | some w =>
      if w.done = none ∧ n ≤ w.len ∧ (n = 0 → w.len = 0) then
        some { s with
          writes := s.writes.set i { w with done := some n }
          wire := s.wire ++ s.load n w.buffer }
      else none
    | none => none
  | .writeCallBack i =>
    match s.writes[i]? with
    | some w => w.done.map (writeCallBack s i)
    | none => none

attribute [local simp] step

def system : Lts State Label where
  init := ⟨[], [], [], false, [], []⟩
  step := step

/-- The peer gets the strings in order, and all of them where no write is outstanding. -/
structure Exact (s : State) : Prop where
  one : s.writes.length ≤ 1
  inOrder : s.wire <+: s.bufs.flatten
  all : s.writes = [] → s.wire = s.bufs.flatten

/-- The caller leaves a string alone until the write issued from it has
transferred its bytes, and no string is too long for an `int`. -/
def KeepsBuffers (s : State) : Label → Prop
  | .writeToSocket buf => buf.length < 2147483648
  | .overwrite i _ => ∀ w ∈ s.writes, w.buffer = .caller i → w.done ≠ none
  | _ => True

instance (s : State) : ∀ a, Decidable (KeepsBuffers s a)
  | .writeToSocket buf => inferInstanceAs (Decidable (buf.length < 2147483648))
  | .overwrite i _ =>
    inferInstanceAs (Decidable (∀ w ∈ s.writes, w.buffer = .caller i → w.done ≠ none))
  | .transmit _ _ | .writeCallBack _ => inferInstanceAs (Decidable True)

-- ---------------------------------------------------------------------------
-- The invariant
-- ---------------------------------------------------------------------------

/-- A message the queue can hold: not empty and short enough for an `int`. -/
def Fits (m : List UInt8) : Prop := m ≠ [] ∧ m.length < 2147483648

/-- The node of `m` of which `cur` bytes are through. -/
def nodeAt (cur : Nat) (m : List UInt8) : MsgNode := ⟨m, m.length, cur⟩

/-- `w` has taken, or can take, its bytes from `m` after the first `cur`. -/
structure Feeds (s : State) (w : Write) (m : List UInt8) (cur : Nat) : Prop where
  cur_lt : cur < m.length
  len : w.len = m.length - cur
  done : ∀ n, w.done = some n → 0 < n ∧ n ≤ w.len
  buffer : w.done = none →
    w.buffer = .node m cur ∨ ∃ i, w.buffer = .caller i ∧ cur = 0 ∧ s.memory[i]? = some m

inductive Inv (s : State) : Prop
  | idle : s.sendQueue = [] → s.writes = [] → s.sendPending = false →
      Outgoing s.bufs [] 0 s.wire → Inv s
  | writing (cur : Nat) (m : List UInt8) (ms : List (List UInt8)) (w : Write) :
      s.sendQueue = nodeAt cur m :: ms.map (nodeAt 0) → s.writes = [w] → s.sendPending = true →
      (∀ m' ∈ m :: ms, Fits m') → Feeds s w m cur →
      Outgoing s.bufs (m :: ms) (cur + w.done.getD 0) s.wire → Inv s

variable {s s' : State} {w : Write} {m : List UInt8} {ms : List (List UInt8)} {cur : Nat}

theorem new_ok (h : Fits m) : MsgNode.new m (toInt m.length) = some (nodeAt 0 m) := by
  have hload : load m 0 m.length = m := by simpa using load_append m []
  rw [toInt_natCast _ h.2, MsgNode.new, if_neg (by omega), Int.toNat_natCast, hload]
  rfl

/-- What is offered of a node is the rest of its message. -/
theorem write_nodeAt (hfits : Fits m) (hcur : cur < m.length) :
    (nodeAt cur m).write = ⟨.node m cur, m.length - cur, none⟩ := by
  have hlen := hfits.2
  have hsize : toSizeT ((m.length : Int) - cur) = m.length - cur := by
    rw [toSizeT_of_nonneg (by omega) (by omega)]
    omega
  simp only [MsgNode.write, nodeAt, hsize]

theorem feeds_nodeAt (hfits : Fits m) (hcur : cur < m.length) :
    Feeds s (nodeAt cur m).write m cur := by
  rw [write_nodeAt hfits hcur]
  exact ⟨hcur, rfl, fun _ h => (nomatch h), fun _ => .inl rfl⟩

theorem Feeds.bytes (h : Feeds s w m cur) (hdone : w.done = none) (hn : n ≤ w.len) :
    s.load n w.buffer = (m.drop cur).take n := by
  have hcur := h.cur_lt
  have hlen := h.len
  rcases h.buffer hdone with hnode | ⟨i, hcaller, rfl, hmem⟩
  · rw [hnode]
    exact load_eq (by omega)
  · have hget : s.memory.getD i [] = m := by rw [List.getD_eq_getElem?_getD, hmem, Option.getD_some]
    rw [hcaller, State.load, hget]
    exact load_eq (n := 0) (by omega)

theorem Feeds.push (h : Feeds s w m cur) (hmem : s'.memory = s.memory ++ [buf]) :
    Feeds s' w m cur := by
  refine ⟨h.cur_lt, h.len, h.done, fun hdone => ?_⟩
  rcases h.buffer hdone with hnode | ⟨i, hcaller, hcur, hget⟩
  · exact .inl hnode
  · refine .inr ⟨i, hcaller, hcur, ?_⟩
    rw [hmem, List.getElem?_append_left (List.getElem?_eq_some_iff.mp hget).1]
    exact hget

theorem Inv.writeToSocket (h : Inv s) (hok : buf.length < 2147483648)
    (hstep : step s (.writeToSocket buf) = some s') : Inv s' := by
  simp only [step, Option.ite_none_right_eq_some, Option.some.injEq] at hstep
  obtain ⟨hne, rfl⟩ := hstep
  have hfits : Fits buf := ⟨hne, hok⟩
  rw [Iooperation.writeToSocket, new_ok hfits]
  cases h with
  | idle hq hw hpending hout =>
    refine .writing 0 buf [] ⟨.caller s.memory.length, buf.length, none⟩ ?_ ?_ rfl ?_
      ⟨List.length_pos_iff.mpr hne, rfl, fun _ hdone => (nomatch hdone), ?_⟩ (hout.push buf)
    · simp [enqueue, hq]
    · simp [enqueue, hw, hpending]
    · rintro m' hm'
      rw [List.mem_singleton.mp hm']
      exact hfits
    · exact fun _ => .inr ⟨_, rfl, rfl, by simp [enqueue]⟩
  | writing cur m ms w hq hw hpending hms hfeeds hout =>
    refine .writing cur m (ms ++ [buf]) w ?_ ?_ rfl ?_ (hfeeds.push rfl) (hout.push buf)
    · simp [enqueue, hq]
    · simp [enqueue, hw, hpending]
    · rintro m' hm'
      rcases List.mem_append.mp (show m' ∈ (m :: ms) ++ [buf] from hm') with hm' | hm'
      · exact hms m' hm'
      · rw [List.mem_singleton.mp hm']
        exact hfits

theorem Inv.overwrite (h : Inv s) (hok : ∀ w ∈ s.writes, w.buffer = .caller i → w.done ≠ none)
    (hstep : step s (.overwrite i content) = some s') : Inv s' := by
  simp only [step, Option.ite_none_right_eq_some, Option.some.injEq] at hstep
  obtain ⟨-, rfl⟩ := hstep
  cases h with
  | idle hq hw hpending hout => exact .idle hq hw hpending hout
  | writing cur m ms w hq hw hpending hms hfeeds hout =>
    refine .writing cur m ms w hq hw hpending hms ?_ hout
    refine ⟨hfeeds.cur_lt, hfeeds.len, hfeeds.done, fun hdone => ?_⟩
    rcases hfeeds.buffer hdone with hnode | ⟨j, hcaller, hcur, hget⟩
    · exact .inl hnode
    · have hne : i ≠ j := by
        rintro rfl
        exact hok w (by simp [hw]) hcaller hdone
      exact .inr ⟨j, hcaller, hcur, by rw [List.getElem?_set_ne hne, hget]⟩

theorem Inv.transmit (h : Inv s) (hstep : step s (.transmit i n) = some s') : Inv s' := by
  simp only [step] at hstep
  cases h with
  | idle hq hw hpending hout => simp [hw] at hstep
  | writing cur m ms w hq hw hpending hms hfeeds hout =>
    cases i with
    | succ i => simp [hw] at hstep
    | zero =>
      simp only [hw, List.getElem?_cons_zero, Option.ite_none_right_eq_some,
        Option.some.injEq] at hstep
      obtain ⟨⟨hdone, hn, hzero⟩, rfl⟩ := hstep
      have hlen := hfeeds.len
      have hcur := hfeeds.cur_lt
      have hpos : 0 < n := by
        refine Nat.pos_of_ne_zero fun hn0 => ?_
        have hw0 := hzero hn0
        omega
      rw [hdone, Option.getD_none, Nat.add_zero] at hout
      refine .writing cur m ms { w with done := some n } hq rfl hpending hms
        ⟨hcur, hlen, ?_, fun h => (nomatch h)⟩ ?_
      · rintro k hk
        cases hk
        exact ⟨hpos, hn⟩
      · rw [hfeeds.bytes hdone hn]
        exact hout.send (n := n) (by omega)

theorem Inv.writeCallBack (h : Inv s) (hstep : step s (.writeCallBack i) = some s') :
    Inv s' := by
  simp only [step] at hstep
  cases h with
  | idle hq hw hpending hout => simp [hw] at hstep
  | writing cur m ms w hq hw hpending hms hfeeds hout =>
    cases i with
    | succ i => simp [hw] at hstep
    | zero =>
      simp only [hw, List.getElem?_cons_zero, Option.map_eq_some_iff] at hstep
      obtain ⟨n, hdone, rfl⟩ := hstep
      obtain ⟨hpos, hn⟩ := hfeeds.done n hdone
      have hlen := hfeeds.len
      have hfits := hms m (by simp)
      have hshort := hfits.2
      have hcur : toInt ((cur : Int) + n) = ((cur + n : Nat) : Int) :=
        toInt_natCast (cur + n) (by omega)
      rw [hdone, Option.getD_some] at hout
      have hfront : ({ nodeAt cur m with curLen := toInt ((nodeAt cur m).curLen + n) } : MsgNode) =
          nodeAt (cur + n) m := by
        simp only [nodeAt, hcur]
      have hless : toInt ((nodeAt cur m).curLen + n) < (nodeAt cur m).totalLen ↔
          cur + n < m.length := by
        simp only [nodeAt, hcur, Int.ofNat_lt]
      unfold Iooperation.writeCallBack
      simp only [hq, hw, hfront, List.eraseIdx_zero, List.tail_cons, List.nil_append]
      by_cases hmore : cur + n < m.length
      · rw [if_pos (hless.mpr hmore)]
        refine .writing (cur + n) m ms _ rfl rfl hpending hms (feeds_nodeAt hfits hmore) ?_
        exact hout
      · rw [if_neg (mt hless.mp hmore)]
        have hall : cur + n = m.length := by omega
        rw [hall] at hout
        cases ms with
        | nil => exact .idle rfl rfl rfl hout.pop
        | cons next ms =>
          have hnext := hms next (by simp)
          exact .writing 0 next ms _ rfl rfl hpending (fun m' hm' => hms m' (by simp [hm']))
            (feeds_nodeAt hnext (List.length_pos_iff.mpr hnext.1)) hout.pop

theorem Inv.step {a : Label} (h : Inv s) (hok : KeepsBuffers s a) (hstep : step s a = some s') :
    Inv s' := by
  cases a with
  | writeToSocket buf => exact h.writeToSocket hok hstep
  | overwrite i content => exact h.overwrite hok hstep
  | transmit i n => exact h.transmit hstep
  | writeCallBack i => exact h.writeCallBack hstep

theorem Inv.exact (h : Inv s) : Exact s := by
  cases h with
  | idle hq hw hpending hout =>
    exact ⟨by simp [hw], hout.prefix_flatten, fun _ => hout.eq_flatten⟩
  | writing cur m ms w hq hw hpending hms hfeeds hout =>
    refine ⟨by simp [hw], hout.prefix_flatten, fun hidle => ?_⟩
    rw [hidle] at hw
    cases hw

-- ---------------------------------------------------------------------------
-- Runs
-- ---------------------------------------------------------------------------

/-- The session sends what it was given in every run in which no string is
touched while a write takes its bytes from there. -/
theorem exact_of_keepsBuffers (h : system.Reachable KeepsBuffers s) : Exact s := by
  have hinit : Inv system.init := .idle rfl rfl rfl Outgoing.init
  exact (h.invariant hinit fun _ _ _ hs hok hstep => hs.step hok hstep).exact

/-- Two strings in three partial writes, the first string destroyed once the
bytes of its own write are out. -/
theorem exact_two : ∃ s, system.Reachable KeepsBuffers s ∧
    s.bufs = [[7, 8], [9]] ∧ s.writes = [] ∧ Exact s := by
  obtain ⟨s, hs, hcheck⟩ := reachable_of_execIf system (fun s a => decide (KeepsBuffers s a))
    (fun _ _ hok => of_decide_eq_true hok)
    [.writeToSocket [7, 8], .transmit 0 1, .overwrite 0 [0, 0], .writeToSocket [9],
      .writeCallBack 0, .transmit 0 1, .writeCallBack 0, .transmit 0 1, .writeCallBack 0]
    (fun s => s.bufs == [[7, 8], [9]] && s.writes.isEmpty) (by decide +kernel)
  rw [Bool.and_eq_true, beq_iff_eq, List.isEmpty_iff] at hcheck
  exact ⟨s, hs, hcheck.1, hcheck.2, exact_of_keepsBuffers hs⟩

/-- The caller's string is gone before the socket has taken it, as that of
`async_write_data` is before `run`. -/
theorem sends_overwritten : ¬ ∀ s, system.Reachable anyStep s → Exact s := by
  intro h
  obtain ⟨s, hs, hcheck⟩ := reachable_of_exec system
    [.writeToSocket [7], .overwrite 0 [0], .transmit 0 1]
    (fun s => s.wire == [0] && s.bufs == [[7]]) (by decide +kernel)
  rw [Bool.and_eq_true, beq_iff_eq, beq_iff_eq] at hcheck
  have hpre := (h s hs).inOrder
  rw [hcheck.1, hcheck.2] at hpre
  exact absurd hpre (by decide)

end DdsAuto.Iooperation
