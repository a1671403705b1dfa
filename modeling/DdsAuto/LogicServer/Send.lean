import DdsAuto.Asio.HelloWorld

/-!
# Frames queued by LogicServer02

`Send` takes the length of a `std::string` as a `short`. A length that becomes
negative fails in the `SendNode` constructor; one that wraps to a small positive
number gives a frame that announces less than the message.
`send_truthful_iff`: which lengths are left.
-/

namespace DdsAuto.LogicServer

open CInt Memory Asio

/-- The node says how long the message is, and has all of it. -/
structure Describes (node : SendNode) (msg : List UInt8) : Prop where
  totalLen : node.totalLen = 4 + msg.length
  lengthField : networkToHostShort (loadShort (node.data.drop 2)) = msg.length
  payload : node.buffer.drop 4 = msg

/-- `Send` leaves the queue as it was, also by an exception, or queues a node
that describes the message, all of its stores inside its block. -/
def Truthful (sendQue : List SendNode) (msg : List UInt8) (msgid : Int) : Prop :=
  match sendString 4 sendQue msg msgid with
  | .returned sendQue' =>
    sendQue' = sendQue ∨ ∃ node, sendQue' = sendQue ++ [node] ∧ Describes node msg ∧
      Safe (SendNode.accesses 4 msg (toShort msg.length))
  | .threw => True
  | .crashed => False

/-- The queue is full; or the message and its header fit a `short`; or the
length, as a `short`, makes the size of the array negative. -/
def SendOk (sendQue : List SendNode) (msg : List UInt8) : Prop :=
  maxSendque < sendQue.length ∨ msg.length ≤ 32763 ∨
    32764 ≤ msg.length % 65536 ∧ msg.length % 65536 ≤ 65530

section
variable {sendQue : List SendNode} {msg : List UInt8} {msgid : Int}

-- ---------------------------------------------------------------------------
-- The length as a `short`
-- ---------------------------------------------------------------------------

theorem toShort_length (msg : List UInt8) (h : msg.length % 65536 ≤ 32767) :
    toShort msg.length = (msg.length % 65536 : Nat) := by
  unfold toShort
  omega

theorem toShort_length_neg (msg : List UInt8) (h : 32768 ≤ msg.length % 65536) :
    toShort msg.length = (msg.length % 65536 : Nat) - 65536 := by
  unfold toShort
  omega

/-- The array has no negative size from `-1` on. -/
theorem msgNode_new_some (h : -1 ≤ maxLen) : ∃ node, MsgNode.new maxLen = some node ∧
    node.totalLen = maxLen := by
  rw [MsgNode.new, if_neg (by omega)]
  exact ⟨_, rfl, rfl⟩

theorem sendNode_badArrayNewLength (h : 32764 ≤ msg.length % 65536 ∧ msg.length % 65536 ≤ 65530) :
    SendNode.new 4 msg (toShort msg.length) msgid = .error .badArrayNewLength := by
  have hneg : toShort (toShort msg.length + 4) + 1 < 0 := by
    by_cases hpos : msg.length % 65536 ≤ 32767
    · rw [toShort_length msg hpos]
      unfold toShort
      omega
    · rw [toShort_length_neg msg (by omega)]
      unfold toShort
      omega
  rw [SendNode.new, MsgNode.new, if_pos hneg]

theorem sendNode_wildCopy (h : 65531 ≤ msg.length % 65536) :
    SendNode.new 4 msg (toShort msg.length) msgid = .error .wildCopy := by
  have hlen := toShort_length_neg msg (by omega)
  have hlow : -1 ≤ toShort (toShort msg.length + 4) := by
    rw [hlen]
    unfold toShort
    omega
  obtain ⟨node, hnode, -⟩ := msgNode_new_some hlow
  rw [SendNode.new, hnode]
  simp only
  rw [if_pos (by omega)]

/-- A length that is not negative as a `short` gives a node for that length. -/
theorem sendNode_totalLen (msgid : Int) (h : msg.length % 65536 ≤ 32763) :
    ∃ node, SendNode.new 4 msg (toShort msg.length) msgid = .ok node ∧
      node.totalLen = (msg.length % 65536 : Nat) + 4 := by
  have hlen := toShort_length msg (by omega)
  have htotal : toShort (toShort msg.length + 4) = (msg.length % 65536 : Nat) + 4 := by
    rw [hlen]
    unfold toShort
    omega
  have hlow : -1 ≤ toShort (toShort msg.length + 4) := by omega
  obtain ⟨node, hnode, hsize⟩ := msgNode_new_some hlow
  rw [SendNode.new, hnode]
  simp only
  rw [if_neg (by omega)]
  exact ⟨_, rfl, hsize.trans htotal⟩

-- ---------------------------------------------------------------------------
-- What is queued
-- ---------------------------------------------------------------------------

theorem describes_new (h : msg.length ≤ 32763)
    (hnode : SendNode.new 4 msg msg.length msgid = .ok node) : Describes node msg := by
  have hbuffer := SendNode.buffer_new msg msgid h hnode
  rw [SendNode.new_ok msg msgid h] at hnode
  cases hnode
  refine ⟨Int.add_comm _ _, ?_, ?_⟩
  · have hshort : IsShort msg.length := by
      unfold IsShort
      omega
    rw [networkToHostShort_loadShort, header, List.append_assoc, List.append_assoc,
      List.drop_left' (length_shortBytes _), bigEndianShort_append _ _ (by simp),
      bigEndianShort_shortBytes hshort]
  · rw [hbuffer, List.drop_left' length_header]

theorem accesses_safe (h : msg.length ≤ 32763) :
    Safe (SendNode.accesses 4 msg (toShort msg.length)) := by
  have hlen : toShort msg.length = msg.length := toShort_natCast _ (by omega)
  have htotal : toShort ((msg.length : Int) + 4) = msg.length + 4 := by
    unfold toShort
    omega
  simp only [SendNode.accesses, MsgNode.newAccesses, hlen, htotal, Int.toNat_natCast, safe_append,
    safe_cons, safe_nil, Access.InBounds, and_true]
  omega

theorem sendString_room (h : ¬ maxSendque < sendQue.length) :
    sendString 4 sendQue msg msgid =
      match SendNode.new 4 msg (toShort msg.length) (toShort msgid) with
      | .ok node => .returned (sendQue ++ [node])
      | .error .badArrayNewLength => .threw
      | .error .wildCopy => .crashed := by
  unfold sendString
  exact if_neg h

theorem truthful_of_fits (h : msg.length ≤ 32763) : Truthful sendQue msg msgid := by
  by_cases hfull : maxSendque < sendQue.length
  · rw [Truthful, sendString, if_pos hfull]
    exact .inl rfl
  · have hlen : toShort msg.length = msg.length := toShort_natCast _ (by omega)
    have hnew := SendNode.new_ok msg (toShort msgid) h
    rw [Truthful, sendString_room hfull, hlen, hnew]
    exact .inr ⟨_, rfl, describes_new h hnew, hlen ▸ accesses_safe h⟩

/-- A longer message is either refused by the constructor or misdescribed. -/
theorem truthful_long_iff (hroom : ¬ maxSendque < sendQue.length) (h : 32763 < msg.length) :
    Truthful sendQue msg msgid ↔ 32764 ≤ msg.length % 65536 ∧ msg.length % 65536 ≤ 65530 := by
  rw [Truthful, sendString_room hroom]
  rcases Nat.lt_or_ge (msg.length % 65536) 32764 with hwrap | hge
  · obtain ⟨node, hnew, htotal⟩ := sendNode_totalLen (toShort msgid) (Nat.le_of_lt_succ hwrap)
    rw [hnew]
    refine iff_of_false ?_ (by omega)
    rintro (hsame | ⟨node', hque, hdesc, -⟩)
    · simp at hsame
    · have hnode : node = node' := by simpa using hque
      have hwhole := hdesc.totalLen
      rw [← hnode, htotal] at hwhole
      omega
  · rcases Nat.lt_or_ge (msg.length % 65536) 65531 with hbad | hwild
    · rw [sendNode_badArrayNewLength ⟨hge, by omega⟩]
      exact iff_of_true trivial ⟨hge, by omega⟩
    · rw [sendNode_wildCopy hwild]
      exact iff_of_false id (by omega)

/-- `Send` tells the truth exactly for the lengths of `SendOk`. -/
theorem send_truthful_iff (sendQue : List SendNode) (msg : List UInt8) (msgid : Int) :
    Truthful sendQue msg msgid ↔ SendOk sendQue msg := by
  by_cases hfull : maxSendque < sendQue.length
  · refine iff_of_true ?_ (.inl hfull)
    rw [Truthful, sendString, if_pos hfull]
    exact .inl rfl
  · rcases Nat.lt_or_ge 32763 msg.length with hlong | hfits
    · rw [truthful_long_iff hfull hlong, SendOk, or_iff_right hfull,
        or_iff_right (Nat.not_le.mpr hlong)]
    · exact iff_of_true (truthful_of_fits hfits) (.inr (.inl hfits))

end

/-- 65536 bytes are queued as a frame of four, with no payload. -/
theorem send_drops_payload :
    ¬ ∀ (sendQue : List SendNode) (msg : List UInt8) (msgid : Int),
      Truthful sendQue msg msgid := by
  intro h
  have htrue := h [] (List.replicate 65536 65) 1001
  rw [truthful_long_iff (by simp) (by rw [List.length_replicate]; decide)] at htrue
  rw [List.length_replicate] at htrue
  exact absurd htrue.1 (by decide)

end DdsAuto.LogicServer
