import DdsAuto.Asio.MsgNode

/-!
# `CSession::HandleRead`

The read handler the callback servers share: a loop over the bytes just read
that resumes a header or a body left over from the read before. The servers
differ in the header's length and check and in what they do with a complete
message; those are the fields of `Server`.

A `Call` is one activation: the session, the handler's locals, and what it has
done so far. Each method of `Call` is one statement of the source.
-/

namespace DdsAuto.Asio

open CInt Memory

/-- Effects of a handler on the rest of the server. -/
inductive Event
  | postMsgToQue (node : RecvNode)
  | asyncReadSome
  | clearSession
  | close
  deriving DecidableEq, Repr

/-- The members `HandleRead` uses. `data` is `_data` up to the last byte read;
the zeros behind it are left out. `ext` is what `deliver` needs of the rest. -/
structure Session (ε : Type) where
  data : List UInt8
  bHeadParse : Bool
  recvHeadNode : MsgNode
  recvMsgNode : Option RecvNode
  ext : ε

/-- How delivering one message ends. -/
inductive Outcome
  | returned
  | threw
  | crashed
  deriving DecidableEq, Repr

structure Delivery (ε : Type) where
  ext : ε
  events : List Event
  accesses : List Access
  outcome : Outcome

/-- What distinguishes one server's `HandleRead`. `parseHead` maps the bytes of
a complete header to `(msg_len, msg_id)`, or to `none` where the check fails. -/
structure Server (ε : Type) where
  headTotalLen : Nat
  headTotalLen_pos : 0 < headTotalLen
  headTotalLen_le : headTotalLen ≤ 2048
  parseHead : List UInt8 → Option (Int × Int)
  parseHead_take : ∀ data, headTotalLen ≤ data.length →
    parseHead (data.take headTotalLen) = parseHead data
  parseHead_len : ∀ {data msgLen msgId}, parseHead data = some (msgLen, msgId) →
    IsShort msgLen ∧ msgLen ≤ 2048
  deliver : RecvNode → ε → Delivery ε

structure Call (ε : Type) where
  session : Session ε
  copyLen : Int
  bytesTransferred : Nat
  accesses : List Access
  events : List Event

/-- The end of a piece of the handler: it falls through, returns, throws, or
the process is gone. -/
inductive Flow (ε : Type)
  | next (c : Call ε)
  | ret (c : Call ε)
  | throw (c : Call ε)
  | crash (c : Call ε)

def Flow.bind : Flow ε → (Call ε → Flow ε) → Flow ε
  | .next c, k => k c
  | f, _ => f

namespace Call

/-- `memcpy(head->_data + head->_cur_len, _data + copy_len, n)`. -/
def memcpyHead (c : Call ε) (n : Nat) : Call ε :=
  let node := c.session.recvHeadNode
  { c with
    session := { c.session with
      recvHeadNode := node.store node.curLen (load c.session.data c.copyLen n) }
    accesses := c.accesses ++
      [.load c.copyLen n c.session.data.length, .store node.curLen n (node.totalLen + 1)] }

/-- `head->_cur_len += n`. -/
def addHeadCurLen (c : Call ε) (n : Nat) : Call ε :=
  let node := c.session.recvHeadNode
  { c with
    session := { c.session with recvHeadNode := { node with curLen := toShort (node.curLen + n) } } }

/-- `copy_len += n; bytes_transferred -= n`. -/
def advance (c : Call ε) (n : Int) : Call ε :=
  { c with copyLen := c.copyLen + n, bytesTransferred := toSizeT (c.bytesTransferred - n) }

/-- `_recv_msg_node = make_shared<RecvNode>(..)` once the node is built. -/
def setMsgNode (c : Call ε) (node : RecvNode) : Call ε :=
  { c with
    session := { c.session with recvMsgNode := some node }
    accesses := c.accesses ++ MsgNode.newAccesses node.totalLen }

/-- `memcpy(msg->_data + msg->_cur_len, _data + copy_len, n)`. -/
def memcpyBody (c : Call ε) (node : RecvNode) (n : Nat) : Call ε :=
  { c with
    session := { c.session with
      recvMsgNode := some
        { node with toMsgNode := node.store node.curLen (load c.session.data c.copyLen n) } }
    accesses := c.accesses ++
      [.load c.copyLen n c.session.data.length, .store node.curLen n (node.totalLen + 1)] }

/-- `msg->_cur_len += n`. -/
def addBodyCurLen (c : Call ε) (n : Int) : Call ε :=
  let node := c.session.recvMsgNode.map fun node =>
    { node with curLen := toShort (node.curLen + n) }
  { c with session := { c.session with recvMsgNode := node } }

/-- `::memset(_data, 0, MAX_LENGTH)`. -/
def memsetData (c : Call ε) : Call ε :=
  { c with session := { c.session with data := [] } }

def emit (c : Call ε) (e : Event) : Call ε := { c with events := c.events ++ [e] }

def setHeadParse (c : Call ε) (b : Bool) : Call ε :=
  { c with session := { c.session with bHeadParse := b } }

/-- `_recv_head_node->Clear()`. -/
def clearHead (c : Call ε) : Call ε :=
  { c with session := { c.session with recvHeadNode := c.session.recvHeadNode.clear } }

/-- `msg->_data[msg->_total_len] = '\0'`, `node` being the message with it. -/
def terminate (c : Call ε) (node : RecvNode) : Call ε :=
  { c with
    session := { c.session with recvMsgNode := some node }
    accesses := c.accesses ++ [.store node.totalLen 1 (node.totalLen + 1)] }

def delivered (c : Call ε) (r : Delivery ε) : Call ε :=
  { c with
    session := { c.session with ext := r.ext }
    events := c.events ++ r.events
    accesses := c.accesses ++ r.accesses }

end Call

section
variable {ε : Type} (srv : Server ε)

/-- From the construction of `_recv_msg_node` on, the header's checks passed. -/
def startBody (c : Call ε) (msgLen msgId : Int) : Flow ε :=
  match RecvNode.new msgLen msgId with
  | none => .throw c
  | some node =>
    let c := c.setMsgNode node
    if c.bytesTransferred < toSizeT msgLen then
      -- the next read is armed before `_b_head_parse` is stored
      .ret (c.memcpyBody node c.bytesTransferred
        |>.addBodyCurLen c.bytesTransferred
        |>.memsetData
        |>.emit .asyncReadSome
        |>.setHeadParse true)
    else
      .next (c.memcpyBody node (toSizeT msgLen)
        |>.addBodyCurLen msgLen
        |>.advance msgLen)

/-- The branch of the loop for `!_b_head_parse`, up to the point where the
body is complete. -/
def parseHeadPhase (c : Call ε) : Flow ε :=
  let head := c.session.recvHeadNode
  if toSizeT (c.bytesTransferred + head.curLen) < srv.headTotalLen then
    .ret (c.memcpyHead c.bytesTransferred
      |>.addHeadCurLen c.bytesTransferred
      |>.memsetData
      |>.emit .asyncReadSome)
  else
    let headRemain := srv.headTotalLen - head.curLen
    let c := c.memcpyHead (toSizeT headRemain) |>.advance headRemain
    match srv.parseHead c.session.recvHeadNode.data with
    | none => .ret (c.emit .clearSession)
    | some (msgLen, msgId) => startBody c msgLen msgId

/-- The rest of the loop body, for a header parsed by an earlier call. -/
def parseBodyPhase (c : Call ε) : Flow ε :=
  match c.session.recvMsgNode with
  | none => .crash c
  | some node =>
    let remainMsg := node.totalLen - node.curLen
    if c.bytesTransferred < toSizeT remainMsg then
      .ret (c.memcpyBody node c.bytesTransferred
        |>.addBodyCurLen c.bytesTransferred
        |>.memsetData
        |>.emit .asyncReadSome)
    else
      .next (c.memcpyBody node (toSizeT remainMsg)
        |>.addBodyCurLen remainMsg
        |>.advance remainMsg)

/-- What both branches do with a complete body; the source has it twice. -/
def finishBody (c : Call ε) : Flow ε :=
  match c.session.recvMsgNode with
  | none => .crash c
  | some node =>
    let node := { node with toMsgNode := node.store node.totalLen [0] }
    let r := srv.deliver node c.session.ext
    let c := c.terminate node |>.delivered r
    match r.outcome with
    | .threw => .throw c
    | .crashed => .crash c
    | .returned =>
      let c := c.setHeadParse false |>.clearHead
      if c.bytesTransferred ≤ 0 then .ret (c.memsetData |>.emit .asyncReadSome) else .next c

def parse (c : Call ε) : Flow ε :=
  if !c.session.bHeadParse then parseHeadPhase srv c else parseBodyPhase c

/-- One pass of the `while` body. -/
def iteration (c : Call ε) : Flow ε := (parse srv c).bind (finishBody srv)

/-- `while (bytes_transferred > 0)`. A result `next` is a loop still running
when the fuel is spent. -/
def whileLoop : Nat → Call ε → Flow ε
  | 0, c => .next c
  | fuel + 1, c =>
    if 0 < c.bytesTransferred then (iteration srv c).bind (whileLoop fuel) else .ret c

/-- The state at the top of `HandleRead` when `chunk` has been read. -/
def enter (s : Session ε) (chunk : List UInt8) : Call ε :=
  { session := { s with data := chunk }
    copyLen := 0
    bytesTransferred := chunk.length
    accesses := []
    events := [] }

/-- `HandleRead` with no error. A `throw` is caught at the end of the handler,
which logs it and returns. -/
def handleRead (s : Session ε) (chunk : List UInt8) : Flow ε :=
  whileLoop srv (2 * chunk.length + 2) (enter s chunk)

/-- `HandleRead` with an error. -/
def handleReadError (s : Session ε) : Call ε :=
  { session := s, copyLen := 0, bytesTransferred := 0, accesses := []
    events := [.close, .clearSession] }

/-- The states at the head of the loop during one call. -/
inductive LoopHead (s : Session ε) (chunk : List UInt8) : Call ε → Prop
  | enter : LoopHead s chunk (enter s chunk)
  | next {c c' : Call ε} : LoopHead s chunk c → 0 < c.bytesTransferred →
      iteration srv c = .next c' → LoopHead s chunk c'

/-- The session a constructor leaves. -/
def Session.fresh (ext : ε) : Session ε where
  data := []
  bHeadParse := false
  recvHeadNode :=
    { curLen := 0, totalLen := srv.headTotalLen
      data := List.replicate (srv.headTotalLen + 1) 0 }
  recvMsgNode := none
  ext := ext

end

end DdsAuto.Asio
