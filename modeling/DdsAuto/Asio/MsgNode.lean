import DdsAuto.Lib.CInt
import DdsAuto.Lib.Memory

/-!
# `MsgNode`, `RecvNode` and `SendNode`

The message buffers shared by the socket servers. A node owns
`new char[_total_len + 1]()`; its lengths are `short`s. The servers differ
only in how many bytes `SendNode` adds to the body's length for its header.
-/

namespace DdsAuto.Asio

open CInt Memory

structure MsgNode where
  curLen : Int
  totalLen : Int
  data : List UInt8
  deriving DecidableEq, Repr

/-- The constructor. A negative array size throws `bad_array_new_length`. -/
def MsgNode.new (maxLen : Int) : Option MsgNode :=
  if maxLen + 1 < 0 then none
  else some
    { curLen := 0
      totalLen := maxLen
      data := store (List.replicate (maxLen + 1).toNat 0) maxLen [0] }

/-- What the constructor stores: the terminating `'\0'`. -/
def MsgNode.newAccesses (maxLen : Int) : List Access := [.store maxLen 1 (maxLen + 1)]

def MsgNode.store (node : MsgNode) (off : Int) (src : List UInt8) : MsgNode :=
  { node with data := Memory.store node.data off src }

@[simp] theorem MsgNode.store_curLen (node : MsgNode) (off : Int) (src : List UInt8) :
    (node.store off src).curLen = node.curLen := rfl

@[simp] theorem MsgNode.store_totalLen (node : MsgNode) (off : Int) (src : List UInt8) :
    (node.store off src).totalLen = node.totalLen := rfl

def MsgNode.clear (node : MsgNode) : MsgNode :=
  { node.store 0 (List.replicate node.totalLen.toNat 0) with curLen := 0 }

/-- `boost::asio::buffer(_data, _total_len)`. -/
def MsgNode.buffer (node : MsgNode) : List UInt8 := node.data.take node.totalLen.toNat

structure RecvNode extends MsgNode where
  msgId : Int
  deriving DecidableEq, Repr

def RecvNode.new (maxLen msgId : Int) : Option RecvNode :=
  (MsgNode.new maxLen).map fun node => { node with msgId }

structure SendNode extends MsgNode where
  msgId : Int
  deriving DecidableEq, Repr

/-- How a `SendNode` constructor fails: an exception, or a `memcpy` whose
negative length wraps to more bytes than there are and does not return. -/
inductive SendFailure
  | badArrayNewLength
  | wildCopy
  deriving DecidableEq, Repr

/-- `SendNode(msg, max_len, msg_id)` with `room` bytes added for the header. -/
def SendNode.new (room : Int) (msg : List UInt8) (maxLen msgId : Int) :
    Except SendFailure SendNode :=
  match MsgNode.new (toShort (maxLen + room)) with
  | none => .error .badArrayNewLength
  | some node =>
    if maxLen < 0 then .error .wildCopy
    else
      let node := node.store 0 (shortBytes (hostToNetworkShort msgId))
      let node := node.store 2 (shortBytes (hostToNetworkShort maxLen))
      .ok { node.store 4 (load msg 0 maxLen.toNat) with msgId }

/-- The accesses of a constructor that returns. -/
def SendNode.accesses (room : Int) (msg : List UInt8) (maxLen : Int) : List Access :=
  let size := toShort (maxLen + room) + 1
  MsgNode.newAccesses (toShort (maxLen + room)) ++
    [.store 0 2 size, .store 2 2 size, .load 0 maxLen.toNat (msg.length + 1),
      .store 4 maxLen.toNat size]

/-- Id and length in network order. -/
def header (msgId : Int) (len : Nat) : List UInt8 :=
  shortBytes (hostToNetworkShort msgId) ++ shortBytes (hostToNetworkShort len)

@[simp] theorem length_header : (header msgId len).length = 4 := rfl

theorem MsgNode.new_ok (n : Nat) : MsgNode.new n =
    some { curLen := 0, totalLen := n, data := List.replicate (n + 1) 0 } := by
  have hstore : Memory.store (List.replicate (n + 1) 0) n [0] = List.replicate (n + 1) 0 := by
    rw [store_eq (by simp)]
    simp [List.replicate_succ']
  simp [MsgNode.new, show ¬ (n : Int) + 1 < 0 by omega, show ((n : Int) + 1).toNat = n + 1 by omega,
    hstore]

/-- A node for `n` bytes before the first one is copied in. -/
def RecvNode.zeros (n : Nat) (msgId : Int) : RecvNode where
  curLen := 0
  totalLen := n
  data := List.replicate (n + 1) 0
  msgId := msgId

theorem RecvNode.new_ok (n : Nat) (msgId : Int) :
    RecvNode.new n msgId = some (.zeros n msgId) := by
  simp [RecvNode.new, MsgNode.new_ok, RecvNode.zeros]

theorem RecvNode.new_none {maxLen : Int} (h : maxLen < -1) (msgId : Int) :
    RecvNode.new maxLen msgId = none := by
  simp [RecvNode.new, MsgNode.new, show maxLen + 1 < 0 by omega]

/-- A body that leaves room for its header in a `short` is copied whole. -/
theorem SendNode.new_ok (msg : List UInt8) (msgId : Int) (h : msg.length ≤ 32763) :
    SendNode.new 4 msg msg.length msgId = .ok
      { curLen := 0, totalLen := msg.length + 4, data := header msgId msg.length ++ msg ++ [0],
        msgId } := by
  have htotal : toShort (msg.length + 4) = ((msg.length + 4 : Nat) : Int) :=
    toShort_natCast (msg.length + 4) (by omega)
  have hload : load msg 0 msg.length = msg := by
    have h := load_eq (n := 0) (show 0 + msg.length ≤ msg.length by omega)
    simpa using h
  have h0 := store_append [] (List.replicate (msg.length + 4 + 1) 0)
    (shortBytes (hostToNetworkShort msgId)) (by simp)
  have h2 := store_append (shortBytes (hostToNetworkShort msgId))
    (List.replicate (msg.length + 3) 0) (shortBytes (hostToNetworkShort msg.length)) (by simp)
  have h4 := store_append (header msgId msg.length) (List.replicate (msg.length + 1) 0) msg
    (by simp)
  rw [SendNode.new, htotal, MsgNode.new_ok]
  simp only [List.length_nil, length_shortBytes, length_header, List.nil_append,
    List.drop_replicate] at h0 h2 h4
  simp_all [MsgNode.store, header, show ¬ (msg.length : Int) < 0 by omega]

/-- A `SendNode` comes out of every length that is not negative and leaves room
for the header in a `short`. -/
theorem SendNode.new_ok_iff (hroom : 0 ≤ room ∧ room ≤ 4) (hlen : IsShort maxLen)
    (msg : List UInt8) (msgId : Int) :
    (∃ node, SendNode.new room msg maxLen msgId = .ok node) ↔
      0 ≤ maxLen ∧ maxLen + room ≤ 32767 := by
  obtain ⟨hlow, hhigh⟩ := hlen
  by_cases hneg : maxLen < 0
  · have hfail : ¬ ∃ node, SendNode.new room msg maxLen msgId = .ok node := by
      rintro ⟨node, h⟩
      unfold SendNode.new at h
      split at h
      · cases h
      · rw [if_pos hneg] at h
        cases h
    exact ⟨fun h => absurd h hfail, fun h => absurd h.1 (by omega)⟩
  · by_cases hfit : maxLen + room ≤ 32767
    · have htotal : toShort (maxLen + room) = maxLen + room :=
        toShort_of_isShort ⟨by omega, hfit⟩
      refine ⟨fun _ => ⟨by omega, hfit⟩, fun _ => ?_⟩
      rw [SendNode.new, htotal, MsgNode.new, if_neg (by omega)]
      simp only [if_neg hneg]
      exact ⟨_, rfl⟩
    · have htotal : toShort (maxLen + room) + 1 < 0 := by
        unfold toShort
        omega
      rw [SendNode.new, MsgNode.new, if_pos htotal]
      simp [hfit]

theorem SendNode.buffer_new (msg : List UInt8) (msgId : Int) (h : msg.length ≤ 32763)
    (hnode : SendNode.new 4 msg msg.length msgId = .ok node) :
    node.buffer = header msgId msg.length ++ msg := by
  rw [SendNode.new_ok msg msgId h] at hnode
  cases hnode
  have hlen : (header msgId msg.length ++ msg).length = msg.length + 4 := by simp; omega
  simp only [MsgNode.buffer]
  rw [show ((msg.length : Int) + 4).toNat = (header msgId msg.length ++ msg).length by omega,
    List.take_left]

end DdsAuto.Asio
