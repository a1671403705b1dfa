import DdsAuto.ProtobufServer.Reply

/-!
# The two replies of `HandleRead`

`HandleRead` has the code from `ParseFromString` to `Send` twice, for a body whose
header came in the same call and for one whose header came in an earlier call. The
first serialises into a string of its own, the second over the text it has put in
front of `data`. `handleRead_eq`: they do the same, so which of the two a body meets,
and with it the cut of the stream, does not show in what is passed to `Send`.

`Send` may throw, where the length of its string is no `short` that leaves room
for the header; `HandleRead` then catches the exception and reads no more.
-/

namespace DdsAuto.ProtobufServer

open CInt Memory Framing Asio Lts

/-- `MsgData` and its library. `parseFromString` parses into a fresh message;
`serializeToString` is given its target and leaves the result of the call in it. -/
structure Protobuf (μ : Type) where
  parseFromString : List UInt8 → μ
  id : μ → Int32
  data : μ → List UInt8
  fresh : μ
  setId : Int32 → μ → μ
  setData : List UInt8 → μ → μ
  serializeToString : μ → List UInt8 → List UInt8
  overwrites : ∀ m target, serializeToString m target = serializeToString m []

-- ---------------------------------------------------------------------------
-- HandleRead
-- ---------------------------------------------------------------------------

/-- The session's writer, and the strings passed to `Send`. -/
structure Sends where
  writer : Writer
  passed : List (List UInt8)

def Sends.handleWrite (w : Sends) : Option Sends :=
  w.writer.handleWrite.map fun writer => { w with writer }

section
variable {μ : Type}

/-- What is passed to `Send` for a body in the branch of `!_b_head_parse`. -/
def freshReply (P : Protobuf μ) (body : List UInt8) : List UInt8 :=
  let msgdata := P.parseFromString body
  let returnStr := receivedText ++ P.data msgdata
  let msgreturn := P.setData returnStr (P.setId (P.id msgdata) P.fresh)
  let returnString := []
  P.serializeToString msgreturn returnString

/-- What is passed to `Send` for a body that an earlier call has begun. -/
def resumedReply (P : Protobuf μ) (body : List UInt8) : List UInt8 :=
  let msgdata := P.parseFromString body
  let returnStr := receivedText ++ P.data msgdata
  let msgreturn := P.setData returnStr (P.setId (P.id msgdata) P.fresh)
  P.serializeToString msgreturn returnStr

/-- From `ParseFromString` to `Send`. -/
def pass (reply : List UInt8 → List UInt8) (node : RecvNode) (w : Sends) : Delivery Sends :=
  let msg := reply (load node.data 0 node.totalLen.toNat)
  let passed := w.passed ++ [msg]
  let parsed : Access := .load 0 node.totalLen.toNat (node.totalLen + 1)
  match send msg w.writer with
  | .error .badArrayNewLength => ⟨{ w with passed }, [], [parsed], .threw⟩
  | .error .wildCopy => ⟨{ w with passed }, [], [parsed], .crashed⟩
  | .ok (writer, built) =>
    ⟨{ writer, passed }, [],
      parsed :: (if built.isSome then MsgNode.withLengthAccesses (msg ++ [0]) (toShort msg.length)
        else []),
      .returned⟩

def freshServer (P : Protobuf μ) : Server Sends := lengthServer networkLength (pass (freshReply P))

def resumedServer (P : Protobuf μ) : Server Sends :=
  lengthServer networkLength (pass (resumedReply P))

/-- One pass of the `while` body. -/
def iteration (P : Protobuf μ) (c : Call Sends) : Flow Sends :=
  if !c.session.bHeadParse then (parseHeadPhase (freshServer P) c).bind (finishBody (freshServer P))
  else (parseBodyPhase c).bind (finishBody (resumedServer P))

/-- `while (bytes_transferred > 0)`. -/
def whileLoop (P : Protobuf μ) : Nat → Call Sends → Flow Sends
  | 0, c => .next c
  | fuel + 1, c =>
    if 0 < c.bytesTransferred then (iteration P c).bind (whileLoop P fuel) else .ret c

/-- `HandleRead` with no error. -/
def handleRead (P : Protobuf μ) (s : Session Sends) (chunk : List UInt8) : Flow Sends :=
  whileLoop P (2 * chunk.length + 2) (enter s chunk)

/-- One call of a handler. An exception is caught at the end of `HandleRead`. -/
def step (P : Protobuf μ) (s : Link Sends) : Handler → Option (Link Sends)
  | .handleRead =>
    match s.input with
    | [] => none
    | chunk :: input =>
      if 0 < s.reads then
        (handleRead P s.session chunk).ended.map fun c =>
          ⟨c.session, s.reads - 1 + c.events.count .asyncReadSome, input⟩
      else none
  | .handleWrite =>
    s.session.ext.handleWrite.map fun ext => { s with session := { s.session with ext } }

/-- A session whose peer sends these chunks; `Start` has armed the first read. -/
def session (P : Protobuf μ) (chunks : List (List UInt8)) : Lts (Link Sends) Handler where
  init := ⟨.fresh (freshServer P) ⟨.init, []⟩, 1, chunks⟩
  step := step P

end

/-- The chunks are these frames, cut anywhere. -/
structure Cuts (chunks bodies : List (List UInt8)) : Prop where
  chunkOk : ∀ chunk ∈ chunks, ChunkOk chunk
  bodyLe : ∀ body ∈ bodies, body.length ≤ 2048
  stream : chunks.flatten = bodies.flatMap fun body => head body ++ body

/-- `Send` of the string comes to its end: `MsgNode` takes its length as a `short`. -/
def Sendable (msg : List UInt8) : Prop := 0 ≤ toShort msg.length ∧ toShort msg.length ≤ 32765

-- ---------------------------------------------------------------------------
-- The two paths are one
-- ---------------------------------------------------------------------------

variable {μ : Type} {P : Protobuf μ} {msg body : List UInt8} {chunks bodies : List (List UInt8)}
variable {s s' : Link Sends}

theorem resumedReply_eq (P : Protobuf μ) : resumedReply P = freshReply P :=
  funext fun _ => P.overwrites _ _

theorem iteration_eq (P : Protobuf μ) : iteration P = Asio.iteration (freshServer P) := by
  have hserver : resumedServer P = freshServer P := by
    rw [resumedServer, resumedReply_eq]
    rfl
  funext c
  rw [iteration, hserver, Asio.iteration, parse]
  split <;> rfl

/-- `HandleRead` is the loop that the servers share. -/
theorem handleRead_eq (P : Protobuf μ) : handleRead P = Asio.handleRead (freshServer P) := by
  have hloop : whileLoop P = Asio.whileLoop (freshServer P) := by
    funext fuel
    induction fuel with
    | zero => rfl
    | succ fuel ih =>
      funext c
      rw [whileLoop, Asio.whileLoop, iteration_eq, ih]
  funext s chunk
  rw [handleRead, Asio.handleRead, hloop]

-- ---------------------------------------------------------------------------
-- Send
-- ---------------------------------------------------------------------------

/-- A string of more than 65535 bytes goes out as far as its length says. -/
theorem send_of_sendable (h : Sendable msg) (w : Writer) : ∃ writer built,
    send msg w = .ok (writer, built) ∧
      Safe (if built.isSome then MsgNode.withLengthAccesses (msg ++ [0]) (toShort msg.length)
        else []) := by
  by_cases hfull : w.sendQue.length > maxSendque
  · exact ⟨w, none, send_full w hfull, safe_nil⟩
  · obtain ⟨hpos, hfits⟩ := h
    obtain ⟨len, hlen⟩ := Int.eq_ofNat_of_zero_le hpos
    have hle : len ≤ msg.length := by
      unfold toShort at hlen
      omega
    have htake : (msg.take len).length = len := by rw [List.length_take, Nat.min_eq_left hle]
    have hsplit : msg ++ [0] = msg.take len ++ (msg.drop len ++ [0]) := by
      rw [← List.append_assoc, List.take_append_drop]
    have hshort : (msg.take len).length ≤ 32765 := by
      rw [htake]
      omega
    have hhead : (shortBytes (hostToNetworkShort len)).length = 2 := rfl
    have hnode := MsgNode.withLength_ok hhead hshort (msg.drop len ++ [0])
    have hsafe := MsgNode.withLengthAccesses_safe hshort (msg.drop len ++ [0])
    rw [← hsplit, htake] at hnode hsafe
    rw [send, if_neg hfull, msgNode, hlen, hnode]
    exact ⟨_, _, rfl, hsafe⟩

/-- A reply to a body of the stream is passed to `Send`, which comes to its end. -/
theorem deliver_fresh (h : Sendable (freshReply P body)) (id : Int) (w : Sends) :
    ∃ w' accesses, (freshServer P).deliver (bodyNode id body) w = ⟨w', [], accesses, .returned⟩ ∧
      Safe accesses ∧ w'.passed = w.passed ++ [freshReply P body] := by
  obtain ⟨writer, built, hsend, hsafe⟩ := send_of_sendable h w.writer
  have hload : load (bodyNode id body).data 0 (bodyNode id body).totalLen.toNat = body :=
    load_append body [0]
  have hbounds : (Access.load 0 body.length (body.length + 1)).InBounds := ⟨Int.le_refl 0, by omega⟩
  simp only [freshServer, lengthServer, pass, hload, hsend]
  exact ⟨_, _, rfl, safe_cons.mpr ⟨hbounds, hsafe⟩, rfl⟩

theorem deliverAll_fresh (msgs : List (Int × List UInt8)) (w : Sends)
    (h : ∀ m ∈ msgs, Sendable (freshReply P m.2)) :
    ∃ w' accesses, deliverAll (freshServer P) msgs w = ⟨w', [], accesses, .returned⟩ ∧
      Safe accesses ∧ w'.passed = w.passed ++ msgs.map fun m => freshReply P m.2 := by
  induction msgs generalizing w with
  | nil => exact ⟨w, [], rfl, safe_nil, by simp⟩
  | cons m msgs ih =>
    obtain ⟨w₁, acc₁, hdeliver, hsafe₁, h₁⟩ := deliver_fresh (h m List.mem_cons_self) m.1 w
    obtain ⟨w₂, acc₂, hrest, hsafe₂, h₂⟩ := ih w₁ fun m' hm' => h m' (List.mem_cons_of_mem _ hm')
    refine ⟨w₂, acc₁ ++ acc₂, ?_, safe_append.mpr ⟨hsafe₁, hsafe₂⟩, ?_⟩
    · rw [deliverAll, hdeliver, Delivery.andThen]
      simp only [hrest, List.nil_append]
    · rw [h₂, h₁, List.append_assoc]
      rfl

-- ---------------------------------------------------------------------------
-- Runs
-- ---------------------------------------------------------------------------

/-- For each body delivered its reply has been passed to `Send`, and for nothing else. -/
def Passed (P : Protobuf μ) (done : List (List UInt8)) (w : Sends) : Prop :=
  w.passed = done.map (freshReply P)

/-- The stream ends with a frame. -/
theorem Cuts.carries (h : Cuts chunks bodies) : Carries head chunks bodies :=
  ⟨h.chunkOk, h.bodyLe, [], head [], [], by simpa using h.stream, by simp,
    by simp [head, shortBytes], by simp⟩

theorem encodes_fresh (P : Protobuf μ) (h : body.length ≤ 2048) :
    (freshServer P).format.Encodes (fun _ body => head body) (0, body) := by
  refine encodes_length rfl ?_ h
  rw [← List.append_nil (head body)]
  exact announced_head (by omega) []

theorem step_of_ended {c : Call Sends} (chunks : List (List UInt8)) (hin : s.input = chunk :: input)
    (harmed : 0 < s.reads) (h : (Asio.handleRead (freshServer P) s.session chunk).ended = some c) :
    (session P chunks).step s .handleRead =
      some ⟨c.session, s.reads - 1 + c.events.count .asyncReadSome, input⟩ := by
  simp only [session, step, hin, if_pos harmed, handleRead_eq, h, Option.map_some]

theorem step_handleRead (chunks : List (List UInt8))
    (hfits : ∀ body ∈ bodies, Sendable (freshReply P body))
    (hs : Answering (freshServer P) (Passed P) bodies done s d) (hin : s.input = chunk :: input) :
    ∃ s' done' d', (session P chunks).step s .handleRead = some s' ∧ s'.input = input ∧
      Answering (freshServer P) (Passed P) bodies done' s' d' := by
  obtain ⟨c, done', d', hret, -, hinv⟩ := hs.handleRead_of_deliverAll (fun msgs hmem => by
    obtain ⟨w', accesses, hall, hsafe, hpassed⟩ := deliverAll_fresh msgs s.session.ext
      fun m hm => hfits m.2 (hmem m hm)
    refine ⟨w', accesses, hall, hsafe, ?_⟩
    rw [Passed, hpassed, hs.ext, List.map_append, List.map_map]
    rfl) hin
  have harmed : 0 < s.reads := by
    rw [hs.armed]
    exact Nat.one_pos
  exact ⟨_, done', d', step_of_ended chunks hin harmed (by rw [hret]; rfl), rfl, hinv⟩

theorem reachable_passed (hfits : ∀ body ∈ bodies, Sendable (freshReply P body))
    (hcut : Cuts chunks bodies) (h : (session P chunks).Reachable anyStep s) :
    ∃ done d, Answering (freshServer P) (Passed P) bodies done s d := by
  refine h.invariant
    (P := fun s => ∃ done d, Answering (freshServer P) (Passed P) bodies done s d) ?_ ?_
  · have hinit : Answering (freshServer P) (Passed P) bodies []
        (link (freshServer P) Sends.handleWrite ⟨.init, []⟩ chunks).init (.head []) :=
      answering_init hcut.carries (fun _ => encodes_fresh P) rfl
    exact ⟨_, _, hinit⟩
  · rintro s a s' ⟨done, d, hs⟩ - hstep
    cases a with
    | handleRead =>
      cases hin : s.input with
      | nil =>
        have hnone : step P s .handleRead = some s' := hstep
        simp [step, hin] at hnone
      | cons chunk input =>
        obtain ⟨t, done', d', ht, -, hinv⟩ := step_handleRead chunks hfits hs hin
        cases ht.symm.trans hstep
        exact ⟨done', d', hinv⟩
    | handleWrite =>
      have hwrite : step P s .handleWrite = some s' := hstep
      simp only [step, Sends.handleWrite, Option.map_map, Option.map_eq_some_iff] at hwrite
      obtain ⟨writer, -, rfl⟩ := hwrite
      exact ⟨done, d, hs.written hs.ext⟩

/-- One per frame and in order, as far as the chunks have been read. -/
theorem passed_of_reachable (hfits : ∀ body ∈ bodies, Sendable (freshReply P body))
    (hcut : Cuts chunks bodies) (h : (session P chunks).Reachable anyStep s) :
    s.session.ext.passed <+: bodies.map (freshReply P) ∧
      (s.input = [] → s.session.ext.passed = bodies.map (freshReply P)) ∧
      (s.input ≠ [] → ∃ s', (session P chunks).step s .handleRead = some s') := by
  obtain ⟨done, d, hs⟩ := reachable_passed hfits hcut h
  have hpassed : s.session.ext.passed = done.map (freshReply P) := hs.ext
  refine ⟨?_, fun hin => ?_, fun hin => ?_⟩
  · rw [hpassed, ← hs.left, List.map_append]
    exact List.prefix_append _ _
  · have hleft := hs.left
    rw [hin, List.flatten_nil, Format.run_nil, List.map_nil, List.append_nil] at hleft
    rw [hpassed, hleft]
  · obtain ⟨chunk, input, hin⟩ := List.exists_cons_of_ne_nil hin
    obtain ⟨s', -, -, hstep, -⟩ := step_handleRead chunks hfits hs hin
    exact ⟨s', hstep⟩

theorem exists_read (hfits : ∀ body ∈ bodies, Sendable (freshReply P body))
    (hcut : Cuts chunks bodies) : ∃ s, (session P chunks).Reachable anyStep s ∧ s.input = [] := by
  have hfrom : ∀ input s, (session P chunks).Reachable anyStep s → s.input = input →
      ∃ t, (session P chunks).Reachable anyStep t ∧ t.input = [] := by
    intro input
    induction input with
    | nil => exact fun s h hin => ⟨s, h, hin⟩
    | cons chunk input ih =>
      intro s h hin
      obtain ⟨done, d, hs⟩ := reachable_passed hfits hcut h
      obtain ⟨t, -, -, hstep, hleft, -⟩ := step_handleRead chunks hfits hs hin
      exact ih t (.step h trivial hstep) hleft
  exact hfrom _ _ .init rfl

/-- Cut in any two ways, the same strings are passed to `Send`. -/
theorem replies_same (hfits : ∀ body ∈ bodies, Sendable (freshReply P body))
    (hcut : Cuts chunks bodies) (hcut' : Cuts chunks' bodies)
    (h : (session P chunks).Reachable anyStep s)
    (h' : (session P chunks').Reachable anyStep s') :
    s.session.ext.passed <+: bodies.map (freshReply P) ∧
      (s.input ≠ [] → ∃ t, (session P chunks).step s .handleRead = some t) ∧
      (s.input = [] → s'.input = [] → s.session.ext.passed = bodies.map (freshReply P) ∧
        s.session.ext.passed = s'.session.ext.passed) := by
  obtain ⟨hpre, hall, hnext⟩ := passed_of_reachable hfits hcut h
  obtain ⟨-, hall', -⟩ := passed_of_reachable hfits hcut' h'
  exact ⟨hpre, hnext, fun hin hin' => ⟨hall hin, (hall hin).trans (hall' hin').symm⟩⟩

-- ---------------------------------------------------------------------------
-- The generated MsgData
-- ---------------------------------------------------------------------------

def generated (R : Runtime) : Protobuf MsgData where
  parseFromString := parseFromString R
  id := MsgData.id
  data := MsgData.data
  fresh := ⟨0, []⟩
  setId id m := { m with id }
  setData data m := { m with data }
  serializeToString m _ := serialize m
  overwrites _ _ := rfl

theorem freshReply_generated (R : Runtime) (body : List UInt8) :
    freshReply (generated R) body = reply R body := rfl

/-- `Send` takes every reply the server can build. -/
theorem sendable_generated (R : Runtime) (hlen : body.length ≤ 2048) :
    Sendable (freshReply (generated R) body) := by
  have hle := length_reply_le (R := R) hlen
  rw [freshReply_generated, Sendable, toShort_natCast _ (by omega)]
  omega

/-- Without a condition, where `MsgData` is the generated class. -/
theorem passed_generated (R : Runtime) (hcut : Cuts chunks bodies)
    (h : (session (generated R) chunks).Reachable anyStep s) (hin : s.input = []) :
    s.session.ext.passed = bodies.map (reply R) :=
  (passed_of_reachable (fun body hbody => sendable_generated R (hcut.bodyLe body hbody))
    hcut h).2.1 hin

/-- SyncClient's request, in one chunk and cut behind its header. -/
theorem replies_same_client : ∃ s s' : Link Sends,
    s.session.ext.passed = [reply asciiRuntime (serialize clientRequest)] ∧
      s.session.ext.passed = s'.session.ext.passed := by
  have hlen : (serialize clientRequest).length ≤ 2046 := by decide +kernel
  have hone : Cuts [head (serialize clientRequest) ++ serialize clientRequest]
      [serialize clientRequest] :=
    ⟨by decide +kernel, by decide +kernel, by simp⟩
  have htwo : Cuts [head (serialize clientRequest), serialize clientRequest]
      [serialize clientRequest] :=
    ⟨by decide +kernel, by decide +kernel, by simp⟩
  have hfits : ∀ body ∈ [serialize clientRequest],
      Sendable (freshReply (generated asciiRuntime) body) := fun body hbody =>
    sendable_generated asciiRuntime (hone.bodyLe body hbody)
  obtain ⟨s, hs, hin⟩ := exists_read hfits hone
  obtain ⟨s', hs', hin'⟩ := exists_read hfits htwo
  exact ⟨s, s', (replies_same hfits hone htwo hs hs').2.2 hin hin'⟩

-- ---------------------------------------------------------------------------
-- A reply that Send does not take
-- ---------------------------------------------------------------------------

/-- Whatever the message, 32768 bytes. -/
def large : Protobuf Unit where
  parseFromString _ := ()
  id _ := 0
  data _ := []
  fresh := ()
  setId _ _ := ()
  setData _ _ := ()
  serializeToString _ _ := List.replicate 32768 0
  overwrites _ _ := rfl

theorem send_large (w : Writer) (hroom : w.sendQue = []) :
    send (List.replicate 32768 0) w = .error .badArrayNewLength := by
  have hshort : toShort ((List.replicate 32768 (0 : UInt8)).length : Nat) = -32768 := by
    rw [List.length_replicate]
    unfold toShort
    decide
  have htotal : toShort (-32768 + 2) + 1 < 0 := by
    unfold toShort
    decide
  rw [send, if_neg (by simp [hroom]), hshort, msgNode, MsgNode.withLength, MsgNode.new,
    if_pos htotal]
  rfl

theorem pass_threw (reply : List UInt8 → List UInt8) (node : RecvNode) (w : Sends)
    (h : send (reply (load node.data 0 node.totalLen.toNat)) w.writer = .error .badArrayNewLength) :
    ∃ accesses, pass reply node w =
      ⟨⟨w.writer, w.passed ++ [reply (load node.data 0 node.totalLen.toNat)]⟩, [], accesses, .threw⟩ := by
  simp only [pass, h]
  exact ⟨_, rfl⟩

/-- The first delivery throws, and there is no second. -/
theorem deliverAll_large (id : Int) (msgs : List (Int × List UInt8)) : ∃ accesses,
    deliverAll (freshServer large) ((id, []) :: msgs) ⟨.init, []⟩ =
      ⟨⟨.init, [List.replicate 32768 0]⟩, [], accesses, .threw⟩ := by
  have hreply : ∀ body, freshReply large body = List.replicate 32768 0 := fun _ => rfl
  obtain ⟨accesses, hfirst⟩ := pass_threw (freshReply large) (bodyNode id []) ⟨.init, []⟩
    (by rw [hreply]; exact send_large .init rfl)
  rw [hreply, List.nil_append] at hfirst
  refine ⟨accesses, ?_⟩
  rw [deliverAll, show (freshServer large).deliver = pass (freshReply large) from rfl, hfirst]
  rfl

theorem cuts_empty : Cuts [[0, 0, 0, 0]] [[], []] := ⟨by decide, by decide, by decide +kernel⟩

/-- The exception ends the reading in front of the second frame. -/
theorem exists_ended : ∃ s, (session large [[0, 0, 0, 0]]).Reachable anyStep s ∧ s.input = [] ∧
    s.session.ext.passed = [List.replicate 32768 0] := by
  have hbodies := (cuts_empty.carries.run fun _ => encodes_fresh large).2
  rw [List.flatten_singleton] at hbodies
  obtain ⟨⟨id, body⟩, msgs, hrun, rfl, -⟩ := List.map_eq_cons_iff.mp hbodies
  obtain ⟨accesses, hall⟩ := deliverAll_large id msgs
  have hext : (Session.fresh (freshServer large) ⟨.init, []⟩).ext = ⟨.init, []⟩ := rfl
  obtain ⟨c, hthrow, hdid⟩ := handleRead_deliveryThrew
    (rep_fresh (freshServer large) ⟨.init, []⟩) trivial (cuts_empty.chunkOk _ List.mem_cons_self)
    (by rw [hrun, hext, hall])
  rw [hrun, hext, hall] at hdid
  have hstep := step_of_ended (s := (session large [[0, 0, 0, 0]]).init) [[0, 0, 0, 0]] rfl
    Nat.one_pos (congrArg Flow.ended hthrow)
  exact ⟨_, .step .init trivial hstep, rfl, by rw [hdid.1]⟩

/-- One string is passed to `Send` for two frames. -/
theorem large_reply_ends : ¬ ∀ (P : Protobuf Unit) (chunks chunks' bodies : List (List UInt8))
    (s s' : Link Sends), Cuts chunks bodies → Cuts chunks' bodies →
    (session P chunks).Reachable anyStep s → (session P chunks').Reachable anyStep s' →
    s.input = [] → s'.input = [] → s.session.ext.passed = bodies.map (freshReply P) ∧
      s.session.ext.passed = s'.session.ext.passed := by
  intro h
  obtain ⟨s, hs, hin, hpassed⟩ := exists_ended
  obtain ⟨hall, -⟩ := h large _ _ _ s s cuts_empty cuts_empty hs hs hin hin
  have hlen := congrArg List.length hall
  rw [hpassed] at hlen
  cases hlen

end DdsAuto.ProtobufServer
