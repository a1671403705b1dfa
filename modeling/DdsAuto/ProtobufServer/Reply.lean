import DdsAuto.Asio.Answer
import DdsAuto.Asio.HelloWorld
import DdsAuto.ProtobufServer.Message

/-!
# The replies of ProtobufServer

`HandleRead` parses each body, puts a text in front of `data` and sends the
message back. It refuses a length above `MAX_LENGTH`; `Send` does not look at
the length of what it builds.
-/

namespace DdsAuto.ProtobufServer

open CInt Memory Framing Asio Lts

def receivedText : List UInt8 := ascii "server has received msg, msg data is "

/-- What `HandleRead` hands to `Send` for a body. -/
def reply (R : Runtime) (body : List UInt8) : List UInt8 :=
  let msgdata := parseFromString R body
  serialize { id := msgdata.id, data := receivedText ++ msgdata.data }

/-- `MsgNode(const char*, short)`: the length in network order in front. -/
def msgNode (msg : List UInt8) (maxLen : Int) : Except SendFailure MsgNode :=
  MsgNode.withLength (shortBytes (hostToNetworkShort maxLen)) msg maxLen

/-- `Send(std::string)`, with the node it built. -/
def send (msg : List UInt8) (w : Writer) : Except SendFailure (Writer × Option MsgNode) :=
  if w.sendQue.length > maxSendque then .ok (w, none)
  else (msgNode (msg ++ [0]) (toShort msg.length)).map fun node => (w.push node, some node)

/-- The write queue, and for each body answered the node built for it; there is
none where the queue was full. -/
structure Sender where
  writer : Writer
  answered : List (List UInt8 × Option MsgNode)

def Sender.handleWrite (w : Sender) : Option Sender :=
  w.writer.handleWrite.map fun writer => { w with writer }

/-- The part of `HandleRead` from `ParseFromString` to `Send`. -/
def deliver (R : Runtime) (node : RecvNode) (w : Sender) : Delivery Sender :=
  let body := load node.data 0 node.totalLen.toNat
  let msg := reply R body
  match send msg w.writer with
  | .error .badArrayNewLength => { ext := w, events := [], accesses := [], outcome := .threw }
  | .error .wildCopy => { ext := w, events := [], accesses := [], outcome := .crashed }
  | .ok (writer, built) =>
    { ext := { writer, answered := w.answered ++ [(body, built)] }
      events := []
      accesses := .load 0 node.totalLen.toNat (node.totalLen + 1) ::
        if built.isSome then MsgNode.withLengthAccesses (msg ++ [0]) (toShort msg.length) else []
      outcome := .returned }

def server (R : Runtime) : Server Sender := lengthServer networkLength (deliver R)

/-- One session with its peer. -/
def system (R : Runtime) (input : List (List UInt8)) : Lts (Link Sender) Handler :=
  link (server R) Sender.handleWrite ⟨.init, []⟩ input

/-- The length of a body in network order. -/
def head (body : List UInt8) : List UInt8 := shortBytes (hostToNetworkShort body.length)

/-- SyncClient reads as many bytes as the header says into `msg[MAX_LENGTH]`. -/
def clientRead (frame : List UInt8) : Access :=
  .store 0 (toSizeT (networkToHostShort (loadShort frame))) maxLength

/-- The frame announces the length of the reply, and the length is one that
another `HandleRead` accepts and that SyncClient's buffer holds. -/
structure Closed (msg frame : List UInt8) : Prop where
  announces : networkToHostShort (loadShort frame) = msg.length
  le : (msg.length : Int) ≤ maxLength
  accepted : lengthHeader networkLength frame = some ((msg.length : Int), 0)
  held : (clientRead frame).InBounds

-- ---------------------------------------------------------------------------
-- The length of a reply
-- ---------------------------------------------------------------------------

variable {R : Runtime} {body msg : List UInt8} {chunks bodies : List (List UInt8)}

theorem length_receivedText : receivedText.length = 37 := by decide

/-- A reply is its text, 37 bytes longer than the request's, with two or three
bytes in front of it and the id. -/
theorem length_reply (hlen : body.length ≤ 2048) :
    let msgdata := parseFromString R body
    (reply R body).length =
      msgdata.idSize + msgdata.data.length + (if msgdata.data.length < 91 then 39 else 40) := by
  have hdata := parseFromString_data_le R body
  have htext : (receivedText ++ (parseFromString R body).data).length =
      37 + (parseFromString R body).data.length := by
    rw [List.length_append, length_receivedText]
  have hne : receivedText ++ (parseFromString R body).data ≠ [] := by
    rw [← List.length_pos_iff, htext]
    omega
  have hid : (MsgData.mk (parseFromString R body).id
      (receivedText ++ (parseFromString R body).data)).idSize = (parseFromString R body).idSize := rfl
  simp only [reply, length_serialize, MsgData.byteSizeLong, hid, MsgData.dataSize]
  rw [if_pos hne, htext]
  split
  · rw [Varint.encode_small (by omega), List.length_singleton]
    omega
  · rw [Varint.length_encode_two (by omega) (by omega)]
    omega

theorem length_reply_le (hlen : body.length ≤ 2048) : (reply R body).length ≤ 32765 := by
  have hreply := length_reply (R := R) hlen
  have hdata := parseFromString_data_le R body
  have hid := idSize_le (parseFromString R body)
  simp only at hreply
  split at hreply <;> omega

theorem reply_fits_iff (hlen : body.length ≤ 2048) : (reply R body).length ≤ 2048 ↔
    (parseFromString R body).idSize + (parseFromString R body).data.length ≤ 2008 := by
  have hreply := length_reply (R := R) hlen
  have hid := idSize_le (parseFromString R body)
  simp only at hreply
  split at hreply <;> omega

theorem announced_head (hmsg : msg.length ≤ 32765) (rest : List UInt8) :
    networkToHostShort (loadShort (head msg ++ rest)) = msg.length := by
  rw [networkToHostShort_loadShort, bigEndianShort_append (head msg) rest (Nat.le_refl 2)]
  exact bigEndianShort_shortBytes ⟨by omega, by omega⟩

theorem closed_iff (hmsg : msg.length ≤ 32765) (rest : List UInt8) :
    Closed msg (head msg ++ rest) ↔ msg.length ≤ 2048 := by
  have hlen := announced_head hmsg rest
  refine ⟨fun h => Int.ofNat_le.mp h.le,
    fun h => ⟨hlen, Int.ofNat_le.mpr h, lengthHeader_body hlen h, ?_⟩⟩
  rw [clientRead, hlen, toSizeT_natCast _ (by omega)]
  refine ⟨Int.le_refl 0, ?_⟩
  rw [Int.zero_add]
  exact Int.ofNat_le.mpr h

-- ---------------------------------------------------------------------------
-- Runs
-- ---------------------------------------------------------------------------

theorem encodes_head (h : body.length ≤ 2048) :
    (server R).format.Encodes (fun _ body => head body) (0, body) := by
  refine encodes_length rfl ?_ h
  rw [← List.append_nil (head body)]
  exact announced_head (by omega) []

/-- Every body of `done` has its entry, with the frame of its reply unless the
queue was full, which takes more than `MAX_SENDQUE` replies before it. -/
structure SenderOk (R : Runtime) (done : List (List UInt8)) (w : Sender) : Prop where
  bodies : w.answered.map (·.1) = done
  built : ∀ body node, (body, some node) ∈ w.answered →
    node.buffer = head (reply R body) ++ reply R body
  queued : w.writer.sendQue.length ≤ w.answered.length
  dropped : ∀ i body, w.answered[i]? = some (body, none) → maxSendque < i

theorem senderOk_init : SenderOk R [] ⟨.init, []⟩ where
  bodies := rfl
  built := by simp
  queued := Nat.le_refl 0
  dropped := by simp

theorem send_full (w : Writer) (hfull : w.sendQue.length > maxSendque) :
    send msg w = .ok (w, none) := if_pos hfull

theorem send_room (w : Writer) (hroom : ¬ w.sendQue.length > maxSendque)
    (hmsg : msg.length ≤ 32765) : ∃ node, send msg w = .ok (w.push node, some node) ∧
      node.buffer = head msg ++ msg := by
  have hshort : toShort msg.length = msg.length := toShort_natCast msg.length (by omega)
  have hnode : msgNode (msg ++ [0]) msg.length =
      .ok { curLen := 0, totalLen := msg.length + 2, data := head msg ++ msg ++ [0] } :=
    MsgNode.withLength_ok rfl hmsg [0]
  rw [send, if_neg hroom, hshort, hnode]
  exact ⟨_, rfl, MsgNode.buffer_withLength rfl⟩

theorem SenderOk.answer {done : List (List UInt8)} {w : Sender} {built : Option MsgNode}
    {writer : Writer} (h : SenderOk R done w)
    (hbuilt : ∀ node, built = some node → node.buffer = head (reply R body) ++ reply R body)
    (hqueue : writer.sendQue.length ≤ w.writer.sendQue.length + 1)
    (hdropped : built = none → maxSendque < w.writer.sendQue.length) :
    SenderOk R (done ++ [body]) ⟨writer, w.answered ++ [(body, built)]⟩ := by
  have hqueued := h.queued
  refine ⟨?_, fun b node hmem => ?_, ?_, fun i b hget => ?_⟩
  · rw [List.map_append, h.bodies]
    rfl
  · rcases List.mem_append.mp hmem with hmem | hmem
    · exact h.built b node hmem
    · cases List.mem_singleton.mp hmem
      exact hbuilt node rfl
  · rw [List.length_append, List.length_singleton]
    exact Nat.le_trans hqueue (Nat.succ_le_succ hqueued)
  · by_cases hi : i < w.answered.length
    · rw [List.getElem?_append_left hi] at hget
      exact h.dropped i b hget
    · rw [List.getElem?_append_right (Nat.not_lt.mp hi), List.getElem?_singleton] at hget
      simp only [Option.ite_none_right_eq_some, Option.some.injEq, Prod.mk.injEq] at hget
      exact Nat.lt_of_lt_of_le (hdropped hget.2.2) (Nat.le_trans hqueued (Nat.not_lt.mp hi))

theorem delivers : Delivers (server R) Sender.handleWrite (SenderOk R) where
  deliver done w id body hw hlen := by
    have hmsg := length_reply_le (R := R) hlen
    have hload : load (bodyNode id body).data 0 (bodyNode id body).totalLen.toNat = body :=
      load_append body [0]
    have hbounds : (Access.load 0 body.length (body.length + 1)).InBounds :=
      ⟨Int.le_refl 0, by omega⟩
    simp only [server, lengthServer, deliver, hload]
    by_cases hfull : w.writer.sendQue.length > maxSendque
    · rw [send_full w.writer hfull]
      refine ⟨_, _, rfl, ?_, hw.answer (by simp) (Nat.le_succ _) fun _ => hfull⟩
      exact safe_cons.mpr ⟨hbounds, safe_nil⟩
    · obtain ⟨node, hsend, hbuffer⟩ := send_room w.writer hfull hmsg
      have hshort : toShort (reply R body).length = (reply R body).length :=
        toShort_natCast _ (by omega)
      rw [hsend]
      refine ⟨_, _, rfl, ?_, hw.answer ?_ ?_ (by simp)⟩
      · rw [hshort]
        exact safe_cons.mpr ⟨hbounds, MsgNode.withLengthAccesses_safe hmsg [0]⟩
      · rintro n hn
        cases hn
        exact hbuffer
      · simp
  written done w w' hw hstep := by
    obtain ⟨writer, hwriter, rfl⟩ := Option.map_eq_some_iff.mp hstep
    refine ⟨hw.bodies, hw.built, ?_, hw.dropped⟩
    rw [Writer.sendQue_handleWrite hwriter, List.length_tail]
    exact Nat.le_trans (Nat.sub_le _ _) hw.queued

variable {s : Link Sender} {node : MsgNode}

/-- The bodies are answered in order. The frame built for one announces the
length of its reply, and is closed under the limit exactly where the id and the
text of the request are short enough. -/
theorem reply_closed_iff (hc : Carries head chunks bodies)
    (h : (system R chunks).Reachable anyStep s) :
    s.session.ext.answered.map (·.1) <+: bodies ∧
      (s.input = [] → s.session.ext.answered.map (·.1) = bodies) ∧
      ∀ body node, (body, some node) ∈ s.session.ext.answered →
        networkToHostShort (loadShort node.buffer) = (reply R body).length ∧
        (Closed (reply R body) node.buffer ↔
          (parseFromString R body).idSize + (parseFromString R body).data.length ≤ 2008) := by
  obtain ⟨done, d, hs⟩ := reachable_answering delivers hc (fun _ => encodes_head) senderOk_init h
  have hfirst : s.session.ext.answered.map (·.1) <+: bodies := by
    rw [hs.ext.bodies, ← hs.left]
    exact List.prefix_append _ _
  refine ⟨hfirst, fun hin => ?_, fun body node hmem => ?_⟩
  · have hleft := hs.left
    rwa [hin, List.flatten_nil, Format.run_nil, List.map_nil, List.append_nil,
      ← hs.ext.bodies] at hleft
  · have hlen := hc.bodyLe body (hfirst.subset (List.mem_map_of_mem hmem))
    have hmsg := length_reply_le (R := R) hlen
    rw [hs.ext.built body node hmem]
    exact ⟨announced_head hmsg _, (closed_iff hmsg _).trans (reply_fits_iff hlen)⟩

/-- One frame in one chunk. -/
theorem carries_one (hlen : body.length ≤ 2046) : Carries head [head body ++ body] [body] where
  chunkOk chunk hchunk := by
    rw [List.mem_singleton.mp hchunk]
    refine ⟨by simp [head, shortBytes], ?_⟩
    rw [List.length_append, head, length_shortBytes]
    omega
  bodyLe b hb := by
    rw [List.mem_singleton.mp hb]
    omega
  stream := ⟨[], head [], [], by simp, by simp, by simp [head, shortBytes], by simp⟩

/-- A frame sent alone is answered. -/
theorem first_answered (R : Runtime) (body : List UInt8) (hlen : body.length ≤ 2046) :
    ∃ s node, (system R [head body ++ body]).Reachable anyStep s ∧
      (body, some node) ∈ s.session.ext.answered ∧
      node.buffer = head (reply R body) ++ reply R body := by
  have hc := carries_one hlen
  have hinit : Answering (server R) (SenderOk R) [body] []
      (system R [head body ++ body]).init (.head []) :=
    answering_init hc (fun _ => encodes_head) senderOk_init
  obtain ⟨c, s, done, d, -, -, hstep, hin, hs⟩ := hinit.handleRead delivers hc.bodyLe rfl
  have hleft := hs.left
  rw [hin, List.flatten_nil, Format.run_nil, List.map_nil, List.append_nil,
    ← hs.ext.bodies] at hleft
  obtain ⟨⟨b, built⟩, hans, hb⟩ := List.map_eq_singleton_iff.mp hleft
  rw [show b = body from hb] at hans
  cases built with
  | none =>
    have hdropped := hs.ext.dropped 0 body (by rw [hans]; rfl)
    exact absurd hdropped (Nat.not_lt_zero _)
  | some node =>
    have hmem : (body, some node) ∈ s.session.ext.answered := by simp [hans]
    have hrun : (system R [head body ++ body]).Reachable anyStep s :=
      .step (a := .handleRead) .init trivial hstep
    exact ⟨s, node, hrun, hmem, hs.ext.built body node hmem⟩

/-- The library as it is on ASCII strings and messages without unknown fields. -/
def asciiRuntime : Runtime where
  verifyUtf8 str := str.all (· < 128)
  unknownFieldParse _ _ := none
  unknownFieldParse_le h := nomatch h

/-- The request SyncClient sends. -/
def clientRequest : MsgData := ⟨1001, ascii "Hello boost asio!"⟩

/-- SyncClient's request is answered with a frame closed under the limit. -/
theorem reply_closed_client : ∃ s node,
    (system asciiRuntime [head (serialize clientRequest) ++ serialize clientRequest]).Reachable
      anyStep s ∧ (serialize clientRequest, some node) ∈ s.session.ext.answered ∧
      Closed (reply asciiRuntime (serialize clientRequest)) node.buffer := by
  have hlen : (serialize clientRequest).length ≤ 2046 := by decide +kernel
  have hparse : parseFromString asciiRuntime (serialize clientRequest) = clientRequest :=
    parse_serialize asciiRuntime clientRequest (by decide +kernel) (by decide +kernel)
  obtain ⟨s, node, hs, hmem, -⟩ := first_answered asciiRuntime (serialize clientRequest) hlen
  refine ⟨s, node, hs, hmem, ?_⟩
  refine ((reply_closed_iff (carries_one hlen) hs).2.2 _ node hmem).2.mpr ?_
  rw [hparse]
  decide +kernel

/-- A text of 2009 bytes: the request is accepted, its reply is 2049 bytes long. -/
theorem reply_not_closed : ¬ ∀ R chunks bodies s body node, Carries head chunks bodies →
    (system R chunks).Reachable anyStep s → (body, some node) ∈ s.session.ext.answered →
    Closed (reply R body) node.buffer := by
  intro h
  have hlen : (serialize ⟨0, List.replicate 2009 7⟩).length ≤ 2046 := by decide +kernel
  have hparse := parse_serialize asciiRuntime ⟨0, List.replicate 2009 7⟩ (by decide +kernel)
    (by decide +kernel)
  obtain ⟨s, node, hs, hmem, hbuffer⟩ := first_answered asciiRuntime _ hlen
  have hclosed := h asciiRuntime _ _ s _ node (carries_one hlen) hs hmem
  have hle : (serialize ⟨0, List.replicate 2009 7⟩).length ≤ 2048 := by omega
  rw [hbuffer, closed_iff (length_reply_le hle), reply_fits_iff hle, hparse] at hclosed
  exact absurd hclosed (by decide +kernel)

end DdsAuto.ProtobufServer
