import DdsAuto.Asio.IdHeader
import Mathlib.Logic.Function.Iterate

/-!
# `HandleRead` statement by statement

The handler of the thread pool servers as a program counter over the statements
of the source, so that handlers of one session can be interleaved. A handler
that runs alone does what `handleRead` does in one piece (`alone_handleRead`).
-/

namespace DdsAuto.ThreadPoolServer

open CInt Memory Asio

/-- The four places where a handler arms the next read and returns. -/
inductive Exit
  | headPart
  | newBodyPart
  | bodyPart
  | complete
  deriving DecidableEq, Repr

/-- The statement a handler executes next, with the values of the locals it has
set up to there (`copy_len` and `bytes_transferred` apart). -/
inductive Pc
  | whileTest
  | testHeadParse
  | testHeadPart
  | copyHeadPart
  | addHeadPart
  | setHeadRemain
  | copyHead (headRemain : Int)
  | headCopyLen (headRemain : Int)
  | headTransferred (headRemain : Int)
  | loadMsgId
  | convertMsgId (msgId : Int)
  | testMsgId (msgId : Int)
  | loadMsgLen (msgId : Int)
  | convertMsgLen (msgId msgLen : Int)
  | testMsgLen (msgId msgLen : Int)
  | clearSession
  | newMsgNode (msgId msgLen : Int)
  | testNewBodyPart (msgLen : Int)
  | setRemainMsg
  | testBodyPart (remainMsg : Int)
  | copyBodyPart (e : Exit)
  | addBodyPart (e : Exit)
  | copyNewBody (msgLen : Int)
  | addNewBody (msgLen : Int)
  | newBodyCopyLen (msgLen : Int)
  | newBodyTransferred (msgLen : Int)
  | copyBody (remainMsg : Int)
  | addBody (remainMsg : Int)
  | bodyTransferred (remainMsg : Int)
  | bodyCopyLen (remainMsg : Int)
  | terminate
  | postMsgToQue
  | resetHeadParse
  | clearHead
  | testLeft
  | memset (e : Exit)
  | asyncReadSome (e : Exit)
  | storeHeadParse
  | returned
  | crashed

abbrev Config := Pc × Call Unit

/-- A statement that goes through the pointer `_recv_msg_node`. -/
def withMsgNode (c : Call Unit) (k : RecvNode → Config) : Config :=
  match c.session.recvMsgNode with
  | none => (.crashed, c)
  | some node => k node

/-- `copy_len += n`. -/
def addCopyLen (c : Call Unit) (n : Int) : Call Unit := { c with copyLen := c.copyLen + n }

/-- `bytes_transferred -= n`. -/
def subTransferred (c : Call Unit) (n : Int) : Call Unit :=
  { c with bytesTransferred := toSizeT (c.bytesTransferred - n) }

/-- One statement. A handler that has returned stays where it is. -/
def stmt : Config → Config
  | (.whileTest, c) => (if 0 < c.bytesTransferred then .testHeadParse else .returned, c)
  | (.testHeadParse, c) => (if !c.session.bHeadParse then .testHeadPart else .setRemainMsg, c)
  | (.testHeadPart, c) =>
    (if toSizeT (c.bytesTransferred + c.session.recvHeadNode.curLen) < 4 then .copyHeadPart
      else .setHeadRemain, c)
  | (.copyHeadPart, c) => (.addHeadPart, c.memcpyHead c.bytesTransferred)
  | (.addHeadPart, c) => (.memset .headPart, c.addHeadCurLen c.bytesTransferred)
  | (.setHeadRemain, c) => (.copyHead (4 - c.session.recvHeadNode.curLen), c)
  | (.copyHead headRemain, c) => (.headCopyLen headRemain, c.memcpyHead (toSizeT headRemain))
  | (.headCopyLen headRemain, c) => (.headTransferred headRemain, addCopyLen c headRemain)
  | (.headTransferred headRemain, c) => (.loadMsgId, subTransferred c headRemain)
  | (.loadMsgId, c) => (.convertMsgId (loadShort c.session.recvHeadNode.data), c)
  | (.convertMsgId msgId, c) => (.testMsgId (networkToHostShort msgId), c)
  | (.testMsgId msgId, c) => (if msgId > maxLength then .clearSession else .loadMsgLen msgId, c)
  | (.loadMsgLen msgId, c) =>
    (.convertMsgLen msgId (loadShort (c.session.recvHeadNode.data.drop 2)), c)
  | (.convertMsgLen msgId msgLen, c) => (.testMsgLen msgId (networkToHostShort msgLen), c)
  | (.testMsgLen msgId msgLen, c) =>
    (if msgLen > maxLength then .clearSession else .newMsgNode msgId msgLen, c)
  | (.clearSession, c) => (.returned, c.emit .clearSession)
  | (.newMsgNode msgId msgLen, c) =>
    match RecvNode.new msgLen msgId with
    | none => (.returned, c)
    | some node => (.testNewBodyPart msgLen, c.setMsgNode node)
  | (.testNewBodyPart msgLen, c) =>
    (if c.bytesTransferred < toSizeT msgLen then .copyBodyPart .newBodyPart
      else .copyNewBody msgLen, c)
  | (.setRemainMsg, c) => withMsgNode c fun node => (.testBodyPart (node.totalLen - node.curLen), c)
  | (.testBodyPart remainMsg, c) =>
    (if c.bytesTransferred < toSizeT remainMsg then .copyBodyPart .bodyPart
      else .copyBody remainMsg, c)
  | (.copyBodyPart e, c) =>
    withMsgNode c fun node => (.addBodyPart e, c.memcpyBody node c.bytesTransferred)
  | (.addBodyPart e, c) => (.memset e, c.addBodyCurLen c.bytesTransferred)
  | (.copyNewBody msgLen, c) =>
    withMsgNode c fun node => (.addNewBody msgLen, c.memcpyBody node (toSizeT msgLen))
  | (.addNewBody msgLen, c) => (.newBodyCopyLen msgLen, c.addBodyCurLen msgLen)
  | (.newBodyCopyLen msgLen, c) => (.newBodyTransferred msgLen, addCopyLen c msgLen)
  | (.newBodyTransferred msgLen, c) => (.terminate, subTransferred c msgLen)
  | (.copyBody remainMsg, c) =>
    withMsgNode c fun node => (.addBody remainMsg, c.memcpyBody node (toSizeT remainMsg))
  | (.addBody remainMsg, c) => (.bodyTransferred remainMsg, c.addBodyCurLen remainMsg)
  | (.bodyTransferred remainMsg, c) => (.bodyCopyLen remainMsg, subTransferred c remainMsg)
  | (.bodyCopyLen remainMsg, c) => (.terminate, addCopyLen c remainMsg)
  | (.terminate, c) => withMsgNode c fun node =>
    (.postMsgToQue, c.terminate { node with toMsgNode := node.store node.totalLen [0] })
  | (.postMsgToQue, c) => withMsgNode c fun node => (.resetHeadParse, c.emit (.postMsgToQue node))
  | (.resetHeadParse, c) => (.clearHead, c.setHeadParse false)
  | (.clearHead, c) => (.testLeft, c.clearHead)
  | (.testLeft, c) => (if c.bytesTransferred ≤ 0 then .memset .complete else .whileTest, c)
  | (.memset e, c) => (.asyncReadSome e, c.memsetData)
  -- the next handler may run from here on
  | (.asyncReadSome e, c) =>
    (if e = .newBodyPart then .storeHeadParse else .returned, c.emit .asyncReadSome)
  | (.storeHeadParse, c) => (.returned, c.setHeadParse true)
  | (.returned, c) => (.returned, c)
  | (.crashed, c) => (.crashed, c)

attribute [local simp] stmt

/-- What a handler comes to if nothing else runs. -/
def Alone (x y : Config) : Prop := ∃ n, stmt^[n] x = y

section
variable {c : Call Unit} {x y z : Config}

theorem Alone.refl (x : Config) : Alone x x := ⟨0, rfl⟩

theorem Alone.trans (h : Alone x y) (h' : Alone y z) : Alone x z := by
  obtain ⟨m, rfl⟩ := h
  obtain ⟨n, rfl⟩ := h'
  exact ⟨n + m, Function.iterate_add_apply ..⟩

theorem Alone.head (h : Alone (stmt x) y) : Alone x y := by
  obtain ⟨n, rfl⟩ := h
  exact ⟨n + 1, Function.iterate_succ_apply ..⟩

/-- Where a handler stands after a piece of `handleRead`, `next` being the
statement behind it. -/
def configAfter (next : Pc) : Flow Unit → Config
  | .next c => (next, c)
  | .ret c | .throw c => (.returned, c)
  | .crash c => (.crashed, c)

theorem alone_startBody (c : Call Unit) (msgLen msgId : Int) :
    Alone (.newMsgNode msgId msgLen, c) (configAfter .terminate (startBody c msgLen msgId)) := by
  cases hnew : RecvNode.new msgLen msgId with
  | none =>
    simp only [startBody, hnew]
    exact ⟨1, by simp only [Function.iterate_one, stmt, hnew, configAfter]⟩
  | some node =>
    simp only [startBody, hnew]
    refine .head ?_
    simp only [stmt, hnew]
    refine .head ?_
    by_cases hpart : (c.setMsgNode node).bytesTransferred < toSizeT msgLen
    · simp only [stmt, if_pos hpart, configAfter]
      exact ⟨5, rfl⟩
    · simp only [stmt, if_neg hpart, configAfter]
      exact ⟨4, rfl⟩

/-- What `parseHeadPhase` does with the fields of a complete header. -/
def afterHeader (c : Call Unit) : Option (Int × Int) → Flow Unit
  | none => .ret (c.emit .clearSession)
  | some (msgLen, msgId) => startBody c msgLen msgId

/-- Reading the two fields one after the other is `idHeader`. -/
theorem alone_header (c : Call Unit) :
    Alone (.loadMsgId, c)
      (configAfter .terminate (afterHeader c (idHeader c.session.recvHeadNode.data))) := by
  generalize hdata : c.session.recvHeadNode.data = data
  refine Alone.head (Alone.head (Alone.head ?_))
  by_cases hid : networkToHostShort (loadShort data) > maxLength
  · have hheader : idHeader data = none := by rw [idHeader, if_pos hid]
    rw [hheader]
    simp only [stmt, hdata, if_pos hid]
    exact ⟨1, rfl⟩
  · simp only [stmt, hdata, if_neg hid]
    refine Alone.head (Alone.head (Alone.head ?_))
    by_cases hlen : networkToHostShort (loadShort (data.drop 2)) > maxLength
    · have hheader : idHeader data = none := by rw [idHeader, if_neg hid, if_pos hlen]
      rw [hheader]
      simp only [stmt, hdata, if_pos hlen]
      exact ⟨1, rfl⟩
    · have hheader : idHeader data = some (networkToHostShort (loadShort (data.drop 2)),
          networkToHostShort (loadShort data)) := by rw [idHeader, if_neg hid, if_neg hlen]
      rw [hheader]
      simp only [stmt, hdata, if_neg hlen]
      exact alone_startBody c _ _

theorem parseHeadPhase_full (srv : Server Unit) (c : Call Unit)
    (hfull : ¬ toSizeT (c.bytesTransferred + c.session.recvHeadNode.curLen) < srv.headTotalLen) :
    parseHeadPhase srv c =
      let headRemain := srv.headTotalLen - c.session.recvHeadNode.curLen
      let c := (c.memcpyHead (toSizeT headRemain)).advance headRemain
      afterHeader c (srv.parseHead c.session.recvHeadNode.data) := by
  unfold parseHeadPhase
  rw [if_neg hfull]
  rfl

theorem alone_parseHeadPhase (c : Call Unit) :
    Alone (.testHeadPart, c) (configAfter .terminate (parseHeadPhase postServer c)) := by
  have htotal : postServer.headTotalLen = 4 := by simp only [postServer, idServer]
  have hparse : postServer.parseHead = idHeader := by rw [postServer, idServer_parseHead]
  refine .head ?_
  by_cases hpart : toSizeT (c.bytesTransferred + c.session.recvHeadNode.curLen) < 4
  · have hphase : parseHeadPhase postServer c = .ret (c.memcpyHead c.bytesTransferred
        |>.addHeadCurLen c.bytesTransferred |>.memsetData |>.emit .asyncReadSome) :=
      if_pos hpart
    simp only [stmt, if_pos hpart, hphase, configAfter]
    exact ⟨4, rfl⟩
  · rw [parseHeadPhase_full postServer c (by rwa [htotal]), htotal, hparse]
    simp only [stmt, if_neg hpart]
    exact Alone.trans ⟨4, rfl⟩ (alone_header _)

theorem alone_parseBodyPhase (c : Call Unit) :
    Alone (.setRemainMsg, c) (configAfter .terminate (parseBodyPhase c)) := by
  refine .head ?_
  cases hnode : c.session.recvMsgNode with
  | none =>
    simp only [stmt, withMsgNode, parseBodyPhase, hnode, configAfter]
    exact .refl _
  | some node =>
    simp only [stmt, withMsgNode, parseBodyPhase, hnode]
    refine .head ?_
    by_cases hpart : c.bytesTransferred < toSizeT (node.totalLen - node.curLen)
    · simp only [stmt, if_pos hpart, configAfter]
      refine .head ?_
      simp only [stmt, withMsgNode, hnode]
      exact ⟨3, rfl⟩
    · simp only [stmt, if_neg hpart, configAfter]
      refine .head ?_
      simp only [stmt, withMsgNode, hnode]
      exact ⟨3, rfl⟩

theorem delivered_post (c : Call Unit) (node : RecvNode) (ext : Unit) :
    c.delivered (postServer.deliver node ext) = c.emit (.postMsgToQue node) := by
  simp only [Call.delivered, Call.emit, postServer, idServer, List.append_nil]

theorem postServer_returned (node : RecvNode) (ext : Unit) :
    (postServer.deliver node ext).outcome = .returned :=
  (postServer_quiet node ext).returned

theorem alone_testLeft (c : Call Unit) :
    Alone (.testLeft, c) (configAfter .whileTest
      (if c.bytesTransferred ≤ 0 then .ret (c.memsetData |>.emit .asyncReadSome) else .next c)) := by
  refine .head ?_
  by_cases hleft : c.bytesTransferred ≤ 0
  · simp only [stmt, if_pos hleft, configAfter]
    exact ⟨2, rfl⟩
  · simp only [stmt, if_neg hleft, configAfter]
    exact .refl _

theorem alone_finishBody (c : Call Unit) :
    Alone (.terminate, c) (configAfter .whileTest (finishBody postServer c)) := by
  cases hnode : c.session.recvMsgNode with
  | none =>
    refine .head ?_
    simp only [stmt, withMsgNode, finishBody, hnode, configAfter]
    exact .refl _
  | some node =>
    simp only [finishBody, hnode, delivered_post, postServer_returned]
    refine Alone.trans (.head ?_) (alone_testLeft _)
    simp only [stmt, withMsgNode, hnode]
    exact ⟨3, rfl⟩

theorem alone_parse (c : Call Unit) :
    Alone (.testHeadParse, c) (configAfter .terminate (parse postServer c)) := by
  refine .head ?_
  cases hparse : c.session.bHeadParse with
  | false =>
    simp only [stmt, parse, hparse, Bool.not_false, if_true]
    exact alone_parseHeadPhase c
  | true =>
    simp only [stmt, parse, hparse, Bool.not_true, Bool.false_eq_true, if_false]
    exact alone_parseBodyPhase c

theorem alone_iteration (c : Call Unit) :
    Alone (.testHeadParse, c) (configAfter .whileTest (iteration postServer c)) := by
  have hparse := alone_parse c
  unfold iteration
  cases hf : parse postServer c with
  | next c' =>
    rw [hf] at hparse
    exact hparse.trans (alone_finishBody c')
  | ret c' | throw c' | crash c' =>
    rw [hf] at hparse
    exact hparse

/-- The loop with any fuel; with none left the handler stands at its test. -/
theorem alone_whileLoop (fuel : Nat) (c : Call Unit) :
    Alone (.whileTest, c) (configAfter .whileTest (whileLoop postServer fuel c)) := by
  induction fuel generalizing c with
  | zero => exact .refl _
  | succ fuel ih =>
    refine .head ?_
    unfold whileLoop
    by_cases hpos : 0 < c.bytesTransferred
    · simp only [stmt, if_pos hpos]
      have hiteration := alone_iteration c
      cases hf : iteration postServer c with
      | next c' =>
        rw [hf] at hiteration
        exact hiteration.trans (ih c')
      | ret c' | throw c' | crash c' =>
        rw [hf] at hiteration
        exact hiteration
    · simp only [stmt, if_neg hpos]
      exact .refl _

/-- The statements of a handler that runs alone are `handleRead`. -/
theorem alone_handleRead (s : Session Unit) (chunk : List UInt8) :
    Alone (.whileTest, enter s chunk) (configAfter .whileTest (handleRead postServer s chunk)) :=
  alone_whileLoop _ _

-- ---------------------------------------------------------------------------
-- One statement
-- ---------------------------------------------------------------------------

/-- The handler has nothing left to execute. -/
def Pc.ended : Pc → Bool
  | .returned | .crashed => true
  | _ => false

/-- The handler has not armed its read yet. -/
def Pc.parsing : Pc → Bool
  | .storeHeadParse | .returned | .crashed => false
  | _ => true

/-- A call with the logs `es` and `as` from before. -/
def logged (es : List Event) (as : List Access) (c : Call Unit) : Call Unit :=
  { c with events := es ++ c.events, accesses := as ++ c.accesses }

/-- No statement reads the logs. -/
theorem stmt_logged (es : List Event) (as : List Access) (pc : Pc) (c : Call Unit) :
    stmt (pc, logged es as c) = ((stmt (pc, c)).1, logged es as (stmt (pc, c)).2) := by
  have hnode (k k' : RecvNode → Config)
      (hk : ∀ node, k' node = ((k node).1, logged es as (k node).2)) :
      withMsgNode (logged es as c) k' = ((withMsgNode c k).1, logged es as (withMsgNode c k).2) := by
    unfold withMsgNode
    simp only [logged]
    split
    · rfl
    · exact hk _
  cases pc
  case newMsgNode msgId msgLen =>
    simp only [stmt]
    cases RecvNode.new msgLen msgId <;> simp [logged, Call.setMsgNode]
  case setRemainMsg | copyBodyPart | copyNewBody | copyBody | terminate | postMsgToQue =>
    exact hnode _ _ fun node => by
      simp [logged, Call.memcpyBody, Call.terminate, Call.emit]
  case whileTest | testHeadPart | testNewBodyPart | testBodyPart => rfl
  all_goals simp [stmt, logged, Call.memcpyHead, Call.addHeadCurLen, Call.addBodyCurLen,
    Call.memsetData, Call.emit, Call.setHeadParse, Call.clearHead, addCopyLen, subTransferred]

theorem iterate_logged (es : List Event) (as : List Access) (n : Nat) (x : Config) :
    stmt^[n] (x.1, logged es as x.2) = ((stmt^[n] x).1, logged es as (stmt^[n] x).2) := by
  induction n generalizing x with
  | zero => rfl
  | succ n ih =>
    rw [Function.iterate_succ_apply, Function.iterate_succ_apply, stmt_logged]
    exact ih (stmt x)

/-- Only the statement that arms the read does so, and only it leads to the
late store. -/
theorem stmt_parsing (h : pc.parsing = true) (harm : ∀ e, pc ≠ .asyncReadSome e)
    (he : c.events = []) :
    .asyncReadSome ∉ (stmt (pc, c)).2.events ∧ (stmt (pc, c)).1 ≠ .storeHeadParse := by
  have hnode (k : RecvNode → Config) (hk : ∀ node, .asyncReadSome ∉ (k node).2.events ∧
      (k node).1 ≠ .storeHeadParse) : .asyncReadSome ∉ (withMsgNode c k).2.events ∧
        (withMsgNode c k).1 ≠ .storeHeadParse := by
    unfold withMsgNode
    split
    · simp [he]
    · exact hk _
  cases pc
  case newMsgNode msgId msgLen =>
    simp only [stmt]
    cases RecvNode.new msgLen msgId <;> simp [Call.setMsgNode, he]
  case setRemainMsg | copyBodyPart | copyNewBody | copyBody | terminate | postMsgToQue =>
    exact hnode _ fun node => by
      simp [Call.memcpyBody, Call.terminate, Call.emit, he]
  case asyncReadSome e => exact absurd rfl (harm e)
  case storeHeadParse | returned | crashed => cases h
  case whileTest | testHeadParse | testHeadPart | testMsgId | testMsgLen | testNewBodyPart |
      testBodyPart | testLeft =>
    simp only [stmt, he]
    split <;> simp
  all_goals simp [stmt, Call.memcpyHead, Call.addHeadCurLen, Call.addBodyCurLen,
    Call.memsetData, Call.emit, Call.setHeadParse, Call.clearHead, addCopyLen, subTransferred, he]

theorem Alone.tail (h : Alone (pc, c) (.returned, c')) (hpc : pc.ended = false) :
    Alone (stmt (pc, c)) (.returned, c') := by
  obtain ⟨n, hn⟩ := h
  cases n with
  | zero =>
    cases hn
    cases hpc
  | succ n => exact ⟨n, (Function.iterate_succ_apply ..).symm.trans hn⟩

theorem Alone.of_ended (h : Alone (pc, c) x) (hpc : pc.ended = true) : x = (pc, c) := by
  obtain ⟨n, rfl⟩ := h
  have hstay : stmt (pc, c) = (pc, c) := by cases pc <;> first | rfl | cases hpc
  exact Function.iterate_fixed hstay n

/-- The logs so far are the front of the logs at the end. -/
theorem Alone.of_logged (h : Alone (pc, logged es as c) (.returned, c')) :
    ∃ c'', Alone (pc, c) (.returned, c'') ∧ c' = logged es as c'' := by
  obtain ⟨n, hn⟩ := h
  have hlog := iterate_logged es as n (pc, c)
  rw [hn] at hlog
  simp only [Prod.mk.injEq] at hlog
  exact ⟨_, ⟨n, Prod.ext hlog.1.symm rfl⟩, hlog.2⟩

end

end DdsAuto.ThreadPoolServer
