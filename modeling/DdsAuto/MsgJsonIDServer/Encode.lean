import DdsAuto.MsgJsonIDServer.HandleRead

/-!
# Frames sent by MsgJsonIDServer

A `SendNode` is `HEAD_DATA_LEN` bytes longer than its body, but its header has
`HEAD_TOTAL_LEN`: the constructor stores one byte past the block and `Send`
transmits two bytes too few. `sendFrames_round_trip_iff`: no frame is encoded
right, and no stream of frames but the empty one is decoded right.
-/

namespace DdsAuto.MsgJsonIDServer

open CInt Memory Json Asio Framing

/-- `SendNode(body, |body|, id)`. -/
def sendNode (f : Int × List UInt8) : Except SendFailure SendNode :=
  SendNode.new headDataLen f.2 f.2.length f.1

/-- What `Send` hands to `async_write` for the frame. -/
def sendBytes (f : Int × List UInt8) : List UInt8 := (sendNode f).toOption.elim [] (·.buffer)

/-- The constructor stays in its block, and the header and the whole body are
transmitted. -/
def Encoded (f : Int × List UInt8) : Prop :=
  (∃ node, sendNode f = .ok node) ∧ Safe (SendNode.accesses headDataLen f.2 f.2.length) ∧
    sendBytes f = header f.1 f.2.length ++ f.2

/-- The decoder recovers the frames from what is sent for them. -/
def Decoded (J : JsonCpp) (frames : List (Int × List UInt8)) : Prop :=
  ((jsonServer J).format.run (.head []) (frames.flatMap sendBytes)).2 = frames

structure RoundTrip (J : JsonCpp) (frames : List (Int × List UInt8)) : Prop where
  encoded : ∀ f ∈ frames, Encoded f
  decoded : Decoded J frames

section
variable {f : Int × List UInt8} {frames : List (Int × List UInt8)}

theorem length_le_of_frameOk (h : FrameOk f) : f.2.length ≤ 2048 := by
  have hle : (f.2.length : Int) ≤ 2048 := h.2.2
  omega

/-- The stores of the constructor, in a block that has room for them. -/
theorem store_header (id : Int) (body : List UInt8) :
    store (store (store (List.replicate (body.length + 4) 0) 0
      (shortBytes (hostToNetworkShort id))) 2 (shortBytes (hostToNetworkShort body.length))) 4
      body = header id body.length ++ body := by
  have h0 := store_append [] (List.replicate (body.length + 4) 0)
    (shortBytes (hostToNetworkShort id)) (by simp)
  have h2 := store_append (shortBytes (hostToNetworkShort id))
    (List.replicate (body.length + 2) 0) (shortBytes (hostToNetworkShort body.length)) (by simp)
  have h4 := store_append (header id body.length) (List.replicate body.length 0) body (by simp)
  simp only [List.length_nil, length_shortBytes, length_header, List.nil_append,
    List.drop_replicate, Nat.sub_self, List.replicate_zero, List.append_nil] at h0 h2 h4
  rw [show (0 : Int) = (0 : Nat) from rfl, h0]
  exact (congrArg (store · 4 body) h2).trans h4

/-- The block has all but the last byte of header and body. -/
theorem sendNode_eq (h : FrameOk f) : sendNode f = .ok
    { curLen := 0, totalLen := f.2.length + 2,
      data := (header f.1 f.2.length ++ f.2).take (f.2.length + 3), msgId := f.1 } := by
  obtain ⟨id, body⟩ := f
  have hlen : body.length ≤ 2048 := length_le_of_frameOk h
  have htotal : toShort (body.length + headDataLen) = ((body.length + 2 : Nat) : Int) :=
    toShort_natCast (body.length + 2) (by omega)
  have hload : load body 0 body.length = body := by
    have hbody := load_append body []
    rwa [List.append_nil] at hbody
  have hzeros : List.replicate (body.length + 3) (0 : UInt8) =
      (List.replicate (body.length + 4) 0).take (body.length + 3) := by
    simp
  rw [sendNode, SendNode.new, htotal, MsgNode.new_ok, hzeros]
  simp only [if_neg (show ¬ (body.length : Int) < 0 by omega), MsgNode.store, Int.toNat_natCast,
    hload, store_take, store_header]
  rfl

theorem sendBytes_eq (h : FrameOk f) :
    sendBytes f = (header f.1 f.2.length ++ f.2).take (f.2.length + 2) := by
  have htotal : ((f.2.length : Int) + 2).toNat = f.2.length + 2 := by omega
  rw [sendBytes, sendNode_eq h]
  simp only [Except.toOption, Option.elim, MsgNode.buffer, htotal, List.take_take]
  rw [Nat.min_eq_left (Nat.le_succ _)]

theorem length_sendBytes (h : FrameOk f) : (sendBytes f).length = f.2.length + 2 := by
  rw [sendBytes_eq h, List.length_take, List.length_append, length_header]
  omega

theorem not_encoded (h : FrameOk f) : ¬ Encoded f := by
  have hlen : (f.2.length : Int) ≤ 2048 := h.2.2
  have hfits : 0 ≤ (f.2.length : Int) ∧ (f.2.length : Int) + 2 ≤ 32767 := by omega
  exact fun henc => sendNode_overflows f.2 hfits henc.2.1

/-- Every frame is sent two bytes short. -/
theorem spent_eq (J : JsonCpp) (h : ∀ f ∈ frames, FrameOk f) :
    (frames.flatMap sendBytes).length + 2 * frames.length = (jsonServer J).format.spent frames := by
  induction frames with
  | nil => rfl
  | cons f frames ih =>
    have hf := length_sendBytes (h f (by simp))
    have hrest := ih fun g hg => h g (by simp [hg])
    have hhead : (jsonServer J).format.headLen = 4 := rfl
    rw [List.flatMap_cons, Format.spent_cons, List.length_append, List.length_cons]
    omega

theorem decoded_iff (J : JsonCpp) (h : ∀ f ∈ frames, FrameOk f) :
    Decoded J frames ↔ frames = [] := by
  constructor
  · intro hdec
    have hspent := Format.run_spent (F := (jsonServer J).format) (.head [])
      (frames.flatMap sendBytes)
    have hshort := spent_eq J h
    rw [Decoded] at hdec
    rw [hdec] at hspent
    simp only [Format.held, List.length_nil] at hspent
    exact List.length_eq_zero_iff.mp (by omega)
  · rintro rfl
    rfl

/-- No frame is encoded right, and no stream of frames but the empty one is
decoded right. -/
theorem sendFrames_round_trip_iff (J : JsonCpp) (frames : List (Int × List UInt8))
    (h : ∀ f ∈ frames, FrameOk f) :
    (∀ f ∈ frames, ¬ Encoded f) ∧ (Decoded J frames ↔ frames = []) ∧
      (RoundTrip J frames ↔ frames = []) := by
  refine ⟨fun f hf => not_encoded (h f hf), decoded_iff J h, fun hrt => ?_, ?_⟩
  · exact (decoded_iff J h).mp hrt.decoded
  · rintro rfl
    exact ⟨by simp, rfl⟩

theorem sendFrames_round_trip_two :
    (∀ f ∈ [(1, ascii "a"), (2, ascii "")], ¬ Encoded f) ∧
      ¬ RoundTrip brackets [(1, ascii "a"), (2, ascii "")] := by
  have hframes : ∀ f ∈ [((1 : Int), ascii "a"), (2, ascii "")], FrameOk f := by decide +kernel
  obtain ⟨hone, -, hall⟩ := sendFrames_round_trip_iff brackets _ hframes
  exact ⟨hone, fun hrt => by cases hall.mp hrt⟩

/-- The frame `(1, "hi")`: the last byte is stored outside the block, and the
whole body stays unsent. -/
theorem sendNode_truncates :
    ¬ ∀ (J : JsonCpp) (frames : List (Int × List UInt8)),
      (∀ f ∈ frames, FrameOk f) → RoundTrip J frames := by
  intro h
  have hrt := h brackets [(1, [104, 105])] (by decide)
  have hbytes := (hrt.encoded (1, [104, 105]) (by simp)).2.2
  have hsent : sendBytes (1, [104, 105]) = [0, 1, 0, 2] := by decide +kernel
  rw [hsent] at hbytes
  exact absurd hbytes (by decide +kernel)

end

end DdsAuto.MsgJsonIDServer
