import DdsAuto.Asio.Reader
import DdsAuto.Lib.Framing

/-!
# `HandleRead` decodes frames

`handleRead_sound`: one call on a chunk has the effect of the symbol-by-symbol
decoder of `Server.format` on that chunk, from any session that represents a
live decoder state. `Rep` is the invariant between calls; `Window` ties the
locals of the loop to what is left of the chunk.
-/

namespace DdsAuto.Asio

open CInt Memory Framing

/-- Why a session decodes no further: its header was refused, `new` threw on a
negative length, or a length of `-1` made the parser leave its block. -/
inductive Stop
  | cleared
  | threw
  | overran
  deriving DecidableEq, Repr

def Server.verdict (srv : Server ε) (hd : List UInt8) : Verdict Int Stop :=
  match srv.parseHead hd with
  | none => .stop .cleared
  | some (msgLen, msgId) =>
    if 0 ≤ msgLen then .body msgId msgLen.toNat
    else if msgLen = -1 then .stop .overran
    else .stop .threw

def Server.format (srv : Server ε) : Format UInt8 Int Stop where
  headLen := srv.headTotalLen
  headLen_pos := srv.headTotalLen_pos
  verdict := srv.verdict

section
variable {ε : Type} {srv : Server ε} {hd : List UInt8} {msgLen msgId : Int} {len : Nat}

theorem verdict_none (h : srv.parseHead hd = none) : srv.verdict hd = .stop .cleared := by
  simp [Server.verdict, h]

theorem verdict_body (h : srv.parseHead hd = some ((len : Int), msgId)) :
    srv.verdict hd = .body msgId len := by
  simp [Server.verdict, h]

theorem verdict_overran (h : srv.parseHead hd = some (-1, msgId)) :
    srv.verdict hd = .stop .overran := by
  simp [Server.verdict, h]

theorem verdict_threw (h : srv.parseHead hd = some (msgLen, msgId)) (hlen : msgLen < -1) :
    srv.verdict hd = .stop .threw := by
  simp [Server.verdict, h, show ¬ 0 ≤ msgLen by omega, show ¬ msgLen = -1 by omega]

theorem parseHead_cases (srv : Server ε) (hd : List UInt8) :
    srv.parseHead hd = none ∨
      (∃ (len : Nat) (msgId : Int), srv.parseHead hd = some ((len : Int), msgId)) ∨
      (∃ msgId, srv.parseHead hd = some (-1, msgId)) ∨
      ∃ msgLen msgId, srv.parseHead hd = some (msgLen, msgId) ∧ msgLen < -1 := by
  cases h : srv.parseHead hd with
  | none => exact .inl rfl
  | some m =>
    obtain ⟨msgLen, msgId⟩ := m
    by_cases hpos : 0 ≤ msgLen
    · exact .inr (.inl ⟨msgLen.toNat, msgId, by rw [Int.toNat_of_nonneg hpos]⟩)
    · by_cases hone : msgLen = -1
      · exact .inr (.inr (.inl ⟨msgId, by rw [hone]⟩))
      · exact .inr (.inr (.inr ⟨msgLen, msgId, rfl, by omega⟩))

theorem verdict_overran_iff :
    srv.verdict hd = .stop .overran ↔ ∃ msgId, srv.parseHead hd = some (-1, msgId) := by
  refine ⟨fun hv => ?_, fun ⟨_, h⟩ => verdict_overran h⟩
  rcases parseHead_cases srv hd with h | ⟨_, _, h⟩ | h | ⟨_, _, h, hlt⟩
  · rw [verdict_none h] at hv
    cases hv
  · rw [verdict_body h] at hv
    cases hv
  · exact h
  · rw [verdict_threw h hlt] at hv
    cases hv

theorem verdict_body_iff :
    srv.verdict hd = .body msgId len ↔ srv.parseHead hd = some ((len : Int), msgId) := by
  refine ⟨fun hv => ?_, verdict_body⟩
  rcases parseHead_cases srv hd with h | ⟨_, _, h⟩ | ⟨_, h⟩ | ⟨_, _, h, hlt⟩
  · rw [verdict_none h] at hv
    cases hv
  · rw [verdict_body h] at hv
    cases hv
    exact h
  · rw [verdict_overran h] at hv
    cases hv
  · rw [verdict_threw h hlt] at hv
    cases hv

/-- No body is longer than `MAX_LENGTH`. -/
theorem verdict_body_le (hv : srv.format.verdict hd = .body msgId len) : len ≤ 2048 := by
  have hlen := (srv.parseHead_len (verdict_body_iff.mp hv)).2
  omega

end

abbrev Decoder := State UInt8 Int Stop

/-- A head node of `len` bytes that holds `got`. -/
structure HeadRep (len : Nat) (node : MsgNode) (got : List UInt8) : Prop where
  cur : node.curLen = got.length
  lt : got.length < len
  total : node.totalLen = len
  size : node.data.length = len + 1
  take : node.data.take got.length = got

/-- A message node of `len` bytes that holds `got`. -/
structure BodyRep (node : RecvNode) (id : Int) (len : Nat) (got : List UInt8) : Prop where
  msgId : node.msgId = id
  cur : node.curLen = got.length
  fits : got.length ≤ len
  total : node.totalLen = len
  le : len ≤ 2048
  size : node.data.length = len + 1
  take : node.data.take got.length = got

/-- The session between two calls, or at the head of the loop. -/
def Rep (srv : Server ε) (s : Session ε) : Decoder → Prop
  | .head got => s.bHeadParse = false ∧ HeadRep srv.headTotalLen s.recvHeadNode got
  | .body id len got => s.bHeadParse = true ∧ got.length < len ∧
      (∃ stale, HeadRep srv.headTotalLen s.recvHeadNode stale) ∧
      ∃ node, s.recvMsgNode = some node ∧ BodyRep node id len got
  | .stopped _ => True

/-- No body is in progress; the header may be complete but not yet counted. -/
def Idle (srv : Server ε) (s : Session ε) : Prop :=
  s.bHeadParse = false ∧ ∃ stale, HeadRep srv.headTotalLen s.recvHeadNode stale

/-- `rest` is what the loop has not consumed of the chunk. -/
structure Window (c : Call ε) (rest : List UInt8) : Prop where
  nonneg : 0 ≤ c.copyLen
  left : c.session.data.drop c.copyLen.toNat = rest
  count : c.bytesTransferred = rest.length
  total : c.copyLen + rest.length = c.session.data.length
  le : c.session.data.length ≤ 2048

section
variable {ε : Type} {srv : Server ε} {c : Call ε} {s : Session ε} {rest got bs body : List UInt8}
  {id : Int}

theorem Window.length_le (w : Window c rest) : rest.length ≤ 2048 := by
  have := w.nonneg
  have := w.total
  have := w.le
  omega

theorem Window.load (w : Window c rest) (h : n ≤ rest.length) :
    load c.session.data c.copyLen n = rest.take n := by
  have hn : c.copyLen = (c.copyLen.toNat : Int) := by have := w.nonneg; omega
  have ht := w.total
  rw [hn, load_eq (by omega), w.left]

/-- Reading `n` more bytes of the chunk stays inside it. -/
theorem Window.inBounds (w : Window c rest) (h : n ≤ rest.length) :
    (Access.load c.copyLen n c.session.data.length).InBounds := by
  have ht := w.total
  exact ⟨w.nonneg, by omega⟩

theorem Window.advance (w : Window c rest) (h : n ≤ rest.length) :
    Window (c.advance n) (rest.drop n) where
  nonneg := by have := w.nonneg; simp only [Call.advance]; omega
  left := by
    have hn := w.nonneg
    have hsum : (c.copyLen + n).toNat = c.copyLen.toNat + n := by omega
    simp only [Call.advance]
    rw [hsum, ← List.drop_drop, w.left]
  count := by
    have hle := w.length_le
    simp only [Call.advance, w.count]
    rw [toSizeT_of_nonneg (by omega) (by omega), List.length_drop]
    omega
  total := by
    have ht := w.total
    simp only [Call.advance]
    rw [List.length_drop]
    omega
  le := w.le

theorem window_enter (s : Session ε) (h : chunk.length ≤ 2048) : Window (enter s chunk) chunk where
  nonneg := Int.le_refl 0
  left := rfl
  count := rfl
  total := by simp [enter]
  le := h

-- ---------------------------------------------------------------------------
-- What one copy does to a node
-- ---------------------------------------------------------------------------

theorem HeadRep.inBounds (h : HeadRep len node got) (hfit : got.length + n ≤ len) :
    (Access.store node.curLen n (node.totalLen + 1)).InBounds := by
  rw [h.cur, h.total]
  exact ⟨by omega, by omega⟩

theorem HeadRep.length_store (h : HeadRep len node got) (bs : List UInt8) :
    (node.store node.curLen bs).data.length = len + 1 := by
  simp [MsgNode.store, h.size]

theorem HeadRep.take_store (h : HeadRep len node got) (bs : List UInt8)
    (hfit : got.length + bs.length ≤ len) :
    (node.store node.curLen bs).data.take (got.length + bs.length) = got ++ bs := by
  have hs := h.size
  rw [MsgNode.store, h.cur, Memory.take_store (by omega), h.take]

/-- The bytes before the copy stay, so a header not yet counted is kept. -/
theorem HeadRep.store (h : HeadRep len node got) : HeadRep len (node.store node.curLen bs) got where
  cur := h.cur
  lt := h.lt
  total := h.total
  size := h.length_store _
  take := by rw [MsgNode.store, h.cur, take_store_before, h.take]

theorem HeadRep.fill (h : HeadRep len node got) (hfit : got.length + bs.length < len)
    (hlen : len ≤ 2048) :
    HeadRep len
      { node.store node.curLen bs with curLen := toShort (node.curLen + bs.length) } (got ++ bs) where
  cur := by
    rw [h.cur, List.length_append]
    exact toShort_natCast (got.length + bs.length) (by omega)
  lt := by simpa using hfit
  total := h.total
  size := h.length_store _
  take := by
    rw [List.length_append]
    exact h.take_store _ (by omega)

theorem HeadRep.clear (h : HeadRep len node got) : HeadRep len node.clear [] where
  cur := rfl
  lt := by have := h.lt; simp; omega
  total := h.total
  size := by simp [MsgNode.clear, MsgNode.store, h.size]
  take := by simp

theorem headRep_fresh (ext : ε) :
    HeadRep srv.headTotalLen (Session.fresh srv ext).recvHeadNode [] where
  cur := rfl
  lt := srv.headTotalLen_pos
  total := rfl
  size := by simp [Session.fresh]
  take := by simp

theorem BodyRep.inBounds (h : BodyRep node id len got) (hfit : got.length + n ≤ len) :
    (Access.store node.curLen n (node.totalLen + 1)).InBounds := by
  rw [h.cur, h.total]
  exact ⟨by omega, by omega⟩

theorem bodyRep_new {len : Nat} (id : Int) (h : len ≤ 2048) :
    BodyRep (.zeros len id) id len [] where
  msgId := rfl
  cur := rfl
  fits := by simp
  total := rfl
  le := h
  size := by simp [RecvNode.zeros]
  take := by simp

/-- A copy of `bs` into the node. -/
def copied (node : RecvNode) (bs : List UInt8) : RecvNode :=
  { node with toMsgNode :=
    { node.store node.curLen bs with curLen := toShort (node.curLen + bs.length) } }

theorem BodyRep.copy (h : BodyRep node id len got) (bs : List UInt8)
    (hfit : got.length + bs.length ≤ len) :
    BodyRep (copied node bs) id len (got ++ bs) where
  msgId := h.msgId
  cur := by
    have hle := h.le
    simp only [copied, h.cur, List.length_append]
    exact toShort_natCast (got.length + bs.length) (by omega)
  fits := by simpa using hfit
  total := h.total
  le := h.le
  size := by simp [copied, MsgNode.store, h.size]
  take := by
    have hs := h.size
    simp only [copied, MsgNode.store, h.cur, List.length_append]
    rw [Memory.take_store (by omega), h.take]

/-- The node of a complete message, as `deliver` receives it. -/
def bodyNode (id : Int) (body : List UInt8) : RecvNode where
  curLen := body.length
  totalLen := body.length
  data := body ++ [0]
  msgId := id

theorem BodyRep.terminate (h : BodyRep node id body.length body) :
    { node with toMsgNode := node.store node.totalLen [0] } = bodyNode id body := by
  have hs := h.size
  have hstore : Memory.store node.data body.length [0] = body ++ [0] := by
    rw [store_eq (by simp; omega), h.take, List.drop_of_length_le (by simp; omega)]
    simp
  simp [bodyNode, MsgNode.store, h.total, h.cur, h.msgId, hstore]

-- ---------------------------------------------------------------------------
-- Up to a complete body
-- ---------------------------------------------------------------------------

/-- What reading leaves alone: the rest of the session, and a clean log. -/
def Kept (c c' : Call ε) : Prop :=
  c'.session.ext = c.session.ext ∧ (Safe c'.accesses ↔ Safe c.accesses)

/-- Everything `parse` can do from decoder state `d` with `rest` unread. -/
inductive ParseOut (srv : Server ε) (c : Call ε) (d : Decoder) (rest : List UInt8) :
    Flow ε → Prop
  | armed {c' : Call ε} {d' : Decoder} : srv.format.run d rest = (d', []) → d'.Live →
      Rep srv c'.session d' → Kept c c' → c'.events = c.events ++ [.asyncReadSome] →
      ParseOut srv c d rest (.ret c')
  | cleared {c' : Call ε} : srv.format.run d rest = (.stopped .cleared, []) →
      Idle srv c'.session → Kept c c' → c'.events = c.events ++ [.clearSession] →
      ParseOut srv c d rest (.ret c')
  | threw {c' : Call ε} : srv.format.run d rest = (.stopped .threw, []) →
      Idle srv c'.session → Kept c c' → c'.events = c.events → ParseOut srv c d rest (.throw c')
  | overran {c' : Call ε} : srv.format.run d rest = (.stopped .overran, []) →
      ¬ Safe c'.accesses → ParseOut srv c d rest (.ret c')
  | complete {c' : Call ε} {node : RecvNode} {id : Int} {body pre post : List UInt8} :
      rest = pre ++ post → pre ≠ [] → srv.format.run d pre = (.head [], [(id, body)]) →
      Window c' post → (∃ stale, HeadRep srv.headTotalLen c'.session.recvHeadNode stale) →
      c'.session.recvMsgNode = some node → BodyRep node id body.length body → Kept c c' →
      c'.events = c.events → ParseOut srv c d rest (.next c')

/-- The call after the header's last byte is copied and consumed. -/
def headDone (c : Call ε) (n : Nat) : Call ε := (c.memcpyHead n).advance n

theorem headDone_window (w : Window c rest) (hn : n ≤ rest.length) :
    Window (headDone c n) (rest.drop n) :=
  Window.advance (c := c.memcpyHead n) ⟨w.nonneg, w.left, w.count, w.total, w.le⟩ hn

theorem headDone_kept (w : Window c rest) (h : HeadRep len c.session.recvHeadNode got)
    (hn : n ≤ rest.length) (hfit : got.length + n ≤ len) : Kept c (headDone c n) :=
  ⟨rfl, by simp [headDone, Call.memcpyHead, Call.advance, w.inBounds hn, h.inBounds hfit]⟩

theorem headDone_head (h : HeadRep len c.session.recvHeadNode got) :
    HeadRep len (headDone c n).session.recvHeadNode got := h.store

theorem headDone_parseHead (w : Window c rest)
    (h : HeadRep srv.headTotalLen c.session.recvHeadNode got) (hn : n ≤ rest.length)
    (hfit : got.length + n = srv.headTotalLen) :
    srv.parseHead (headDone c n).session.recvHeadNode.data = srv.parseHead (got ++ rest.take n) := by
  have htake : (rest.take n).length = n := by simp [hn]
  have hdata : (headDone c n).session.recvHeadNode.data =
      (c.session.recvHeadNode.store c.session.recvHeadNode.curLen (rest.take n)).data := by
    simp [headDone, Call.memcpyHead, Call.advance, w.load hn]
  have hsize := h.length_store (rest.take n)
  rw [hdata, ← srv.parseHead_take _ (by omega), ← hfit]
  have hfill := h.take_store (rest.take n) (by omega)
  rw [htake] at hfill
  rw [hfill]

theorem parseHeadPhase_short (w : Window c rest)
    (h : HeadRep srv.headTotalLen c.session.recvHeadNode got)
    (hlt : got.length + rest.length < srv.headTotalLen) (hp : c.session.bHeadParse = false) :
    ParseOut srv c (.head got) rest (parseHeadPhase srv c) := by
  have hle := srv.headTotalLen_le
  have hcond : toSizeT (c.bytesTransferred + c.session.recvHeadNode.curLen) <
      srv.headTotalLen := by
    rw [w.count, h.cur, toSizeT_of_nonneg (by omega) (by omega)]
    omega
  have hload := w.load (n := rest.length) (Nat.le_refl _)
  rw [List.take_length] at hload
  simp only [parseHeadPhase, hcond, if_true]
  refine .armed (Format.run_head_short got rest hlt) trivial ⟨hp, ?_⟩ ⟨rfl, ?_⟩ rfl
  · have hfill := h.fill hlt hle
    simpa [Call.emit, Call.memsetData, Call.addHeadCurLen, Call.memcpyHead, w.count, hload]
      using hfill
  · simp [Call.emit, Call.memsetData, Call.addHeadCurLen, Call.memcpyHead, w.count,
      w.inBounds (Nat.le_refl _), h.inBounds (Nat.le_of_lt hlt)]

theorem copyBody_node (w : Window c rest) (node : RecvNode) (hn : n ≤ rest.length) :
    ((c.memcpyBody node n).addBodyCurLen n).session.recvMsgNode =
      some (copied node (rest.take n)) := by
  simp [Call.memcpyBody, Call.addBodyCurLen, copied, w.load hn, List.length_take,
    Nat.min_eq_left hn]

theorem copyBody_kept (w : Window c rest) (h : BodyRep node id len got) (hn : n ≤ rest.length)
    (hfit : got.length + n ≤ len) : Kept c ((c.memcpyBody node n).addBodyCurLen n) :=
  ⟨rfl, by simp [Call.memcpyBody, Call.addBodyCurLen, w.inBounds hn, h.inBounds hfit]⟩

theorem copyBody_window (w : Window c rest) (hn : n ≤ rest.length) :
    Window (((c.memcpyBody node n).addBodyCurLen n).advance n) (rest.drop n) :=
  Window.advance (c := (c.memcpyBody node n).addBodyCurLen n)
    ⟨w.nonneg, w.left, w.count, w.total, w.le⟩ hn

theorem Kept.trans (h : Kept c c') (h' : Kept c' c'') : Kept c c'' :=
  ⟨h'.1.trans h.1, h'.2.trans h.2⟩

theorem startBody_threw (h : msgLen < -1) (id : Int) : startBody c msgLen id = .throw c := by
  simp [startBody, RecvNode.new_none h]

/-- The block for a length of `-1` has no byte, and the constructor already
stores one in front of it. -/
theorem startBody_overran (w : Window c rest) (id : Int) :
    ∃ c', startBody c (-1) id = .ret c' ∧ ¬ Safe c'.accesses := by
  have hnew : RecvNode.new (-1) id =
      some { curLen := 0, totalLen := -1, data := [], msgId := id } := rfl
  have hlt : c.bytesTransferred < toSizeT (-1) := by
    have hle := le_toSizeT_of_neg (x := -1) (by decide) (by decide)
    have := w.length_le
    have := w.count
    omega
  have hbad : ¬ (Access.store (-1) 1 (-1 + 1)).InBounds := by decide
  have heq : ∃ c', startBody c (-1) id = .ret c' ∧ .store (-1) 1 (-1 + 1) ∈ c'.accesses := by
    simp only [startBody, hnew]
    exact ⟨_, if_pos hlt, by simp [Call.setHeadParse, Call.emit, Call.memsetData,
      Call.addBodyCurLen, Call.memcpyBody, Call.setMsgNode, MsgNode.newAccesses]⟩
  obtain ⟨c', hret, hmem⟩ := heq
  exact ⟨c', hret, fun hsafe => hbad (hsafe _ hmem)⟩

theorem setMsgNode_kept (id : Int) (len : Nat) : Kept c (c.setMsgNode (.zeros len id)) :=
  ⟨rfl, by simp [Call.setMsgNode, MsgNode.newAccesses, Access.InBounds, RecvNode.zeros]⟩

theorem setMsgNode_window (w : Window c rest) (node : RecvNode) :
    Window (c.setMsgNode node) rest := ⟨w.nonneg, w.left, w.count, w.total, w.le⟩

theorem startBody_short (w : Window c rest) (hlen : len ≤ 2048) (hlt : rest.length < len)
    (id : Int) : ∃ c' node, startBody c len id = .ret c' ∧ c'.session.bHeadParse = true ∧
      c'.session.recvHeadNode = c.session.recvHeadNode ∧ c'.session.recvMsgNode = some node ∧
      BodyRep node id len rest ∧ Kept c c' ∧ c'.events = c.events ++ [.asyncReadSome] := by
  have hnode := bodyRep_new id hlen
  have w' := setMsgNode_window w (.zeros len id)
  have hn : c.bytesTransferred ≤ rest.length := Nat.le_of_eq w.count
  have hcond : c.bytesTransferred < toSizeT len := by
    rw [w.count, toSizeT_natCast len (by omega)]; exact hlt
  have heq : startBody c len id = .ret
      (((c.setMsgNode (.zeros len id)).memcpyBody (.zeros len id) c.bytesTransferred
        |>.addBodyCurLen c.bytesTransferred).memsetData.emit .asyncReadSome
        |>.setHeadParse true) := by
    simp only [startBody, RecvNode.new_ok]
    exact if_pos hcond
  have hset := copyBody_node w' (.zeros len id) hn
  rw [w.count, List.take_length] at hset
  rw [heq, w.count]
  refine ⟨_, copied (.zeros len id) rest, rfl, rfl, rfl, hset, ?_, ?_, rfl⟩
  · simpa using hnode.copy rest (by simpa using Nat.le_of_lt hlt)
  · exact (setMsgNode_kept id len).trans (copyBody_kept w' hnode (Nat.le_refl _) (by simp; omega))

theorem startBody_full (w : Window c rest) (hlen : len ≤ 2048) (hle : len ≤ rest.length)
    (id : Int) : ∃ c' node, startBody c len id = .next c' ∧ Window c' (rest.drop len) ∧
      c'.session.recvHeadNode = c.session.recvHeadNode ∧ c'.session.recvMsgNode = some node ∧
      BodyRep node id len (rest.take len) ∧ Kept c c' ∧ c'.events = c.events := by
  have hnode := bodyRep_new id hlen
  have w' := setMsgNode_window w (.zeros len id)
  have hsize : toSizeT len = len := toSizeT_natCast len (by omega)
  have hcond : ¬ c.bytesTransferred < toSizeT len := by rw [w.count, hsize]; omega
  have heq : startBody c len id = .next
      ((c.setMsgNode (.zeros len id)).memcpyBody (.zeros len id) len
        |>.addBodyCurLen len |>.advance len) := by
    simp only [startBody, RecvNode.new_ok, hsize] at hcond ⊢
    exact if_neg hcond
  have htake : (rest.take len).length = len := by simp [hle]
  refine ⟨_, copied (.zeros len id) (rest.take len), heq, copyBody_window w' hle, rfl,
    copyBody_node w' _ hle, ?_, ?_, rfl⟩
  · simpa using hnode.copy (rest.take len) (by rw [List.length_nil, htake]; omega)
  · exact (setMsgNode_kept id len).trans (copyBody_kept w' hnode hle (by simp))

theorem parseHeadPhase_eq (w : Window c rest)
    (h : HeadRep srv.headTotalLen c.session.recvHeadNode got)
    (hfit : got.length + n = srv.headTotalLen) (hn : n ≤ rest.length) :
    parseHeadPhase srv c = match srv.parseHead (got ++ rest.take n) with
      | none => .ret ((headDone c n).emit .clearSession)
      | some (msgLen, msgId) => startBody (headDone c n) msgLen msgId := by
  have hle := srv.headTotalLen_le
  have hl := w.length_le
  have hcond : ¬ toSizeT (c.bytesTransferred + c.session.recvHeadNode.curLen) <
      srv.headTotalLen := by
    rw [w.count, h.cur, toSizeT_of_nonneg (by omega) (by omega)]
    omega
  have hremain : (srv.headTotalLen : Int) - c.session.recvHeadNode.curLen = n := by
    rw [h.cur]; omega
  simp only [parseHeadPhase, hcond, if_false, hremain, toSizeT_natCast n (by omega)]
  rw [← headDone_parseHead w h hn hfit]
  rfl

/-- A body of `len` bytes begins after the header's last `n` bytes. -/
theorem startBody_out (w' : Window (headDone c n) (rest.drop n)) (hk : Kept c (headDone c n))
    (hhead : HeadRep srv.headTotalLen (headDone c n).session.recvHeadNode got)
    (hlt : got.length < srv.headTotalLen)
    (hd : got.length + (rest.take n).length = srv.format.headLen) (hn : n ≤ rest.length)
    (hverdict : srv.format.verdict (got ++ rest.take n) = .body id len) (hmax : len ≤ 2048) :
    ParseOut srv c (.head got) rest (startBody (headDone c n) len id) := by
  by_cases hshort : (rest.drop n).length < len
  · obtain ⟨c', node, hret, hparse, hsame, hnode, hrep, hk', he⟩ :=
      startBody_short w' hmax hshort id
    have hrun := Format.run_head_body_short (F := srv.format) hlt hd hverdict hshort
    rw [List.take_append_drop] at hrun
    rw [hret]
    refine .armed hrun trivial ⟨hparse, hshort, ⟨got, hsame ▸ hhead⟩, node, hnode, hrep⟩
      (hk.trans hk') he
  · obtain ⟨c', node, hret, hw, hsame, hnode, hrep, hk', he⟩ :=
      startBody_full w' hmax (by omega) id
    have hlen : ((rest.drop n).take len).length = len := by
      rw [List.length_take]; omega
    have hrun : srv.format.run (.head got) (rest.take (n + len)) =
        (.head [], [(id, (rest.drop n).take len)]) := by
      rw [List.take_add]
      exact Format.run_head_body hlt hd (by rw [hlen]; exact hverdict)
    rw [hret]
    refine .complete (List.take_append_drop (n + len) rest).symm ?_ hrun
      (by rwa [← List.drop_drop]) ⟨got, hsame ▸ hhead⟩ hnode (by rwa [hlen]) (hk.trans hk') he
    intro hnil
    have := congrArg List.length hnil
    simp only [List.length_take, List.length_nil] at this
    rw [List.length_take] at hd
    have hhl : srv.format.headLen = srv.headTotalLen := rfl
    omega

theorem parseHeadPhase_full (w : Window c rest)
    (h : HeadRep srv.headTotalLen c.session.recvHeadNode got) (hp : c.session.bHeadParse = false)
    (hge : srv.headTotalLen ≤ got.length + rest.length) :
    ParseOut srv c (.head got) rest (parseHeadPhase srv c) := by
  obtain ⟨n, hfit⟩ : ∃ n, got.length + n = srv.headTotalLen :=
    ⟨srv.headTotalLen - got.length, by have := h.lt; omega⟩
  have hn : n ≤ rest.length := by omega
  have hlt := h.lt
  have hpre : (rest.take n).length = n := by simp [hn]
  have w' := headDone_window w hn
  have hk := headDone_kept w h hn (by omega)
  have hhead := headDone_head (n := n) h
  have hidle : Idle srv (headDone c n).session := ⟨hp, got, hhead⟩
  have hd : got.length + (rest.take n).length = srv.format.headLen := by rw [hpre]; exact hfit
  have hstop (r : Stop) (hv : srv.verdict (got ++ rest.take n) = .stop r) :
      srv.format.run (.head got) rest = (.stopped r, []) := by
    have hrun := Format.run_head_stop (F := srv.format) hlt hd hv (rest.drop n)
    rwa [List.take_append_drop] at hrun
  rw [parseHeadPhase_eq w h hfit hn]
  cases hv : srv.parseHead (got ++ rest.take n) with
  | none => exact .cleared (hstop .cleared (verdict_none hv)) hidle hk rfl
  | some m =>
    obtain ⟨msgLen, msgId⟩ := m
    obtain ⟨-, hmax⟩ := srv.parseHead_len hv
    simp only
    by_cases hneg : msgLen < 0
    · by_cases hone : msgLen = -1
      · subst hone
        obtain ⟨c', hret, hbad⟩ := startBody_overran w' msgId
        rw [hret]
        exact .overran (hstop .overran (verdict_overran hv)) hbad
      · rw [startBody_threw (by omega)]
        exact .threw (hstop .threw (verdict_threw hv (by omega))) hidle hk rfl
    · obtain ⟨len, rfl⟩ : ∃ len : Nat, msgLen = len := ⟨msgLen.toNat, by omega⟩
      exact startBody_out w' hk hhead hlt hd hn (verdict_body hv) (by omega)

theorem parseBodyPhase_out {len : Nat} (w : Window c rest) (hp : c.session.bHeadParse = true)
    (hhead : ∃ stale, HeadRep srv.headTotalLen c.session.recvHeadNode stale)
    (hs : c.session.recvMsgNode = some node) (h : BodyRep node id len got)
    (hlt : got.length < len) :
    ParseOut srv c (.body id len got) rest (parseBodyPhase c) := by
  obtain ⟨n, hfit⟩ : ∃ n, got.length + n = len := ⟨len - got.length, by omega⟩
  have hle := h.le
  have hremain : node.totalLen - node.curLen = n := by rw [h.total, h.cur]; omega
  have hsize : toSizeT (n : Int) = n := toSizeT_natCast n (by omega)
  have hl := w.length_le
  by_cases hshort : rest.length < n
  · have hset := copyBody_node w node (Nat.le_refl _)
    rw [List.take_length] at hset
    have heq : parseBodyPhase c = .ret (((c.memcpyBody node rest.length).addBodyCurLen
        rest.length).memsetData.emit .asyncReadSome) := by
      simp [parseBodyPhase, hs, hremain, hsize, w.count, hshort]
    rw [heq]
    refine .armed (Format.run_body_short id got rest (by omega)) trivial
      ⟨hp, by simp; omega, hhead, copied node rest, hset, h.copy rest (by omega)⟩ ?_ rfl
    exact copyBody_kept w h (Nat.le_refl _) (by omega)
  · have hn : n ≤ rest.length := by omega
    have hlen : (rest.take n).length = n := by simp [hn]
    have heq : parseBodyPhase c = .next (((c.memcpyBody node n).addBodyCurLen n).advance n) := by
      simp [parseBodyPhase, hs, hremain, hsize, w.count, hshort]
    have hfull : (got ++ rest.take n).length = len := by simp [hlen, hfit]
    rw [heq]
    refine .complete (List.take_append_drop n rest).symm
      ?_ (Format.run_body_full id got _ hlt (by omega)) (copyBody_window w hn) hhead
      (copyBody_node w node hn) ?_ (copyBody_kept w h hn (by omega)) rfl
    · intro hnil
      have := congrArg List.length hnil
      simp [hlen] at this
      omega
    · rw [hfull]
      exact h.copy _ (by omega)

theorem parse_out {d : Decoder} (w : Window c rest) (h : Rep srv c.session d) (hd : d.Live) :
    ParseOut srv c d rest (parse srv c) := by
  cases d with
  | head got =>
    obtain ⟨hp, hhead⟩ := h
    have hparse : parse srv c = parseHeadPhase srv c := by simp [parse, hp]
    rw [hparse]
    by_cases hlt : got.length + rest.length < srv.headTotalLen
    · exact parseHeadPhase_short w hhead hlt hp
    · exact parseHeadPhase_full w hhead hp (by omega)
  | body id len got =>
    obtain ⟨hp, hlt, hhead, node, hs, hnode⟩ := h
    have hparse : parse srv c = parseBodyPhase c := by simp [parse, hp]
    rw [hparse]
    exact parseBodyPhase_out w hp hhead hs hnode hlt
  | stopped r => exact hd.elim

-- ---------------------------------------------------------------------------
-- Delivering what is complete
-- ---------------------------------------------------------------------------

/-- One delivery and, if it returned, the next ones. -/
def Delivery.andThen (r : Delivery ε) (next : ε → Delivery ε) : Delivery ε :=
  match r.outcome with
  | .returned =>
    let rs := next r.ext
    { rs with events := r.events ++ rs.events, accesses := r.accesses ++ rs.accesses }
  | _ => r

/-- Deliver messages in order until one does not return. -/
def deliverAll (srv : Server ε) : List (Int × List UInt8) → ε → Delivery ε
  | [], ext => { ext, events := [], accesses := [], outcome := .returned }
  | (id, body) :: msgs, ext => (srv.deliver (bodyNode id body) ext).andThen (deliverAll srv msgs)

theorem Delivery.andThen_stop {r : Delivery ε} (h : r.outcome ≠ .returned) :
    r.andThen next = r := by
  unfold Delivery.andThen
  cases ho : r.outcome <;> simp_all

theorem Delivery.andThen_nil (r : Delivery ε) : r.andThen (deliverAll srv []) = r := by
  unfold Delivery.andThen
  split
  · rename_i ho
    cases r
    simp_all [deliverAll]
  · rfl

/-- The call `c'` is `c` after the delivery `r` and then `evs`. -/
def Did (c c' : Call ε) (r : Delivery ε) (evs : List Event) : Prop :=
  c'.session.ext = r.ext ∧ c'.events = c.events ++ r.events ++ evs ∧
    (Safe c'.accesses ↔ Safe c.accesses ∧ Safe r.accesses)

/-- Everything the loop can do from decoder state `d` with `rest` unread. -/
inductive CallOut (srv : Server ε) (c : Call ε) (d : Decoder) (rest : List UInt8)
    (r : Delivery ε) : Flow ε → Prop
  | armed {c' : Call ε} : r.outcome = .returned → (srv.format.run d rest).1.Live →
      Rep srv c'.session (srv.format.run d rest).1 → Did c c' r [.asyncReadSome] →
      CallOut srv c d rest r (.ret c')
  | cleared {c' : Call ε} : r.outcome = .returned →
      (srv.format.run d rest).1 = .stopped .cleared → Idle srv c'.session →
      Did c c' r [.clearSession] →
      CallOut srv c d rest r (.ret c')
  | threw {c' : Call ε} : r.outcome = .returned →
      (srv.format.run d rest).1 = .stopped .threw → Idle srv c'.session → Did c c' r [] →
      CallOut srv c d rest r (.throw c')
  | overran {c' : Call ε} : r.outcome = .returned →
      (srv.format.run d rest).1 = .stopped .overran → ¬ Safe c'.accesses →
      CallOut srv c d rest r (.ret c')
  | deliveryThrew {c' : Call ε} : r.outcome = .threw → Did c c' r [] →
      CallOut srv c d rest r (.throw c')
  | deliveryCrashed {c' : Call ε} : r.outcome = .crashed → CallOut srv c d rest r (.crash c')

theorem delivered_did (c : Call ε) (r : Delivery ε) (id : Int) (body : List UInt8) :
    Did c ((c.terminate (bodyNode id body)).delivered r) r [] := by
  simp [Did, Call.terminate, Call.delivered, bodyNode, Access.InBounds]

theorem finishBody_eq (hs : c.session.recvMsgNode = some node)
    (h : BodyRep node id body.length body) :
    finishBody srv c =
      let r := srv.deliver (bodyNode id body) c.session.ext
      let c := (c.terminate (bodyNode id body)).delivered r
      match r.outcome with
      | .threw => .throw c
      | .crashed => .crash c
      | .returned =>
        let c := c.setHeadParse false |>.clearHead
        if c.bytesTransferred ≤ 0 then .ret (c.memsetData |>.emit .asyncReadSome) else .next c := by
  unfold finishBody
  rewrite [hs]
  dsimp only
  rewrite [h.terminate]
  rfl

/-- `finishBody` from the state in which `parse` leaves a complete body. -/
theorem finishBody_out {d : Decoder} {post : List UInt8}
    (hrun : ∀ bs, srv.format.run d (pre ++ bs) = ((srv.format.run (.head []) bs).1,
      (id, body) :: (srv.format.run (.head []) bs).2))
    (w : Window c post) (hs : c.session.recvMsgNode = some node)
    (h : BodyRep node id body.length body)
    (hhead : ∃ stale, HeadRep srv.headTotalLen c.session.recvHeadNode stale) :
    (∃ c', finishBody srv c = .next c' ∧ post ≠ [] ∧ Window c' post ∧
      Rep srv c'.session (.head []) ∧
      (srv.deliver (bodyNode id body) c.session.ext).outcome = .returned ∧
      Did c c' (srv.deliver (bodyNode id body) c.session.ext) []) ∨
    (post = [] ∨ (srv.deliver (bodyNode id body) c.session.ext).outcome ≠ .returned) ∧
      CallOut srv c d (pre ++ post) (srv.deliver (bodyNode id body) c.session.ext)
        (finishBody srv c) := by
  generalize hr : srv.deliver (bodyNode id body) c.session.ext = r
  have hdid := delivered_did c r id body
  obtain ⟨stale, hstale⟩ := hhead
  have hrep : Rep srv (((c.terminate (bodyNode id body)).delivered r).setHeadParse
      false).clearHead.session (.head []) := ⟨rfl, hstale.clear⟩
  have hcount : (((c.terminate (bodyNode id body)).delivered r).setHeadParse
      false).clearHead.bytesTransferred = post.length := w.count
  rw [finishBody_eq hs h, hr]
  cases ho : r.outcome with
  | threw => exact .inr ⟨.inr (by simp), by simpa only [ho] using .deliveryThrew ho hdid⟩
  | crashed => exact .inr ⟨.inr (by simp), by simpa only [ho] using .deliveryCrashed ho⟩
  | returned =>
    simp only [hcount, ho]
    by_cases hnil : post = []
    · subst hnil
      refine .inr ⟨.inl rfl, ?_⟩
      simp only [List.length_nil, Nat.le_refl, if_true]
      have hstate := congrArg Prod.fst (hrun [])
      simp only [Format.run_nil] at hstate
      have hlive : (srv.format.run d (pre ++ [])).1.Live := by rw [hstate]; trivial
      have hrep' : Rep srv (((c.terminate (bodyNode id body)).delivered r).setHeadParse
          false |>.clearHead.memsetData.emit .asyncReadSome).session
          (srv.format.run d (pre ++ [])).1 := by rw [hstate]; exact hrep
      exact .armed ho hlive hrep' ⟨hdid.1, by simp [Call.emit, Call.memsetData, Call.clearHead,
        Call.setHeadParse, hdid.2.1], hdid.2.2⟩
    · left
      have hpos := List.length_pos_iff.mpr hnil
      rw [if_neg (by omega)]
      refine ⟨(((c.terminate (bodyNode id body)).delivered r).setHeadParse false).clearHead, rfl,
        hnil, ⟨w.nonneg, w.left, w.count, w.total, w.le⟩, hrep, trivial, hdid⟩

-- ---------------------------------------------------------------------------
-- The loop
-- ---------------------------------------------------------------------------

theorem Did.of_kept {r : Delivery ε} {c₁ c' : Call ε} (hk : Kept c c₁) (he : c₁.events = c.events)
    (h : Did c₁ c' r evs) : Did c c' r evs :=
  ⟨h.1, he ▸ h.2.1, by rw [h.2.2, hk.2]⟩

theorem Did.andThen {r : Delivery ε} {next : ε → Delivery ε} {c₁ c' : Call ε}
    (ho : r.outcome = .returned) (h : Did c c₁ r []) (h' : Did c₁ c' (next r.ext) evs) :
    Did c c' (r.andThen next) evs := by
  obtain ⟨-, he, hs⟩ := h
  obtain ⟨hx', he', hs'⟩ := h'
  simp only [Did, Delivery.andThen, ho, he', he, hs', hs, safe_append]
  exact ⟨hx', by simp, and_assoc⟩

theorem CallOut.of_kept {r : Delivery ε} {c₁ : Call ε} {d : Decoder} (hk : Kept c c₁)
    (he : c₁.events = c.events) (h : CallOut srv c₁ d rest r f) : CallOut srv c d rest r f := by
  cases h with
  | armed ho hl hrep hdid => exact .armed ho hl hrep (hdid.of_kept hk he)
  | cleared ho hst hi hdid => exact .cleared ho hst hi (hdid.of_kept hk he)
  | threw ho hst hi hdid => exact .threw ho hst hi (hdid.of_kept hk he)
  | overran ho hst hbad => exact .overran ho hst hbad
  | deliveryThrew ho hdid => exact .deliveryThrew ho (hdid.of_kept hk he)
  | deliveryCrashed ho => exact .deliveryCrashed ho

/-- The rest of the loop after one message was delivered. -/
theorem CallOut.andThen {r : Delivery ε} {next : ε → Delivery ε} {c₁ : Call ε} {d : Decoder}
    {pre post : List UInt8}
    (hst : (srv.format.run d (pre ++ post)).1 = (srv.format.run (.head []) post).1)
    (ho : r.outcome = .returned) (hdid : Did c c₁ r [])
    (h : CallOut srv c₁ (.head []) post (next r.ext) f) :
    CallOut srv c d (pre ++ post) (r.andThen next) f := by
  have hout : (r.andThen next).outcome = (next r.ext).outcome := by
    simp [Delivery.andThen, ho]
  cases h with
  | armed ho' hl hrep hdid' =>
    exact .armed (hout.trans ho') (hst ▸ hl) (hst ▸ hrep) (hdid.andThen ho hdid')
  | cleared ho' hst' hi hdid' =>
    exact .cleared (hout.trans ho') (hst.trans hst') hi (hdid.andThen ho hdid')
  | threw ho' hst' hi hdid' =>
    exact .threw (hout.trans ho') (hst.trans hst') hi (hdid.andThen ho hdid')
  | overran ho' hst' hbad => exact .overran (hout.trans ho') (hst.trans hst') hbad
  | deliveryThrew ho' hdid' => exact .deliveryThrew (hout.trans ho') (hdid.andThen ho hdid')
  | deliveryCrashed ho' => exact .deliveryCrashed (hout.trans ho')

/-- One pass of the loop: it goes round again with one more message delivered,
or it ends the call. -/
theorem iteration_out {d : Decoder} (w : Window c rest) (h : Rep srv c.session d) (hd : d.Live) :
    (∃ c' id body pre post, iteration srv c = .next c' ∧ rest = pre ++ post ∧ pre ≠ [] ∧
      post ≠ [] ∧ srv.format.run d pre = (.head [], [(id, body)]) ∧ Window c' post ∧
      Rep srv c'.session (.head []) ∧
      (srv.deliver (bodyNode id body) c.session.ext).outcome = .returned ∧
      Did c c' (srv.deliver (bodyNode id body) c.session.ext) []) ∨
    CallOut srv c d rest (deliverAll srv (srv.format.run d rest).2 c.session.ext)
      (iteration srv c) := by
  have hparse := parse_out w h hd
  unfold iteration
  generalize parse srv c = f at hparse
  cases hparse with
  | armed hrun hl hrep hk he =>
    rw [hrun]
    exact .inr (.armed rfl (by rw [hrun]; exact hl) (by rw [hrun]; exact hrep)
      ⟨hk.1, by simpa [deliverAll] using he, by simp [deliverAll, hk.2]⟩)
  | cleared hrun hi hk he =>
    rw [hrun]
    exact .inr (.cleared rfl (by rw [hrun]) hi ⟨hk.1, by simpa [deliverAll] using he,
      by simp [deliverAll, hk.2]⟩)
  | threw hrun hi hk he =>
    rw [hrun]
    exact .inr (.threw rfl (by rw [hrun]) hi ⟨hk.1, by simpa [deliverAll] using he,
      by simp [deliverAll, hk.2]⟩)
  | overran hrun hbad =>
    rw [hrun]
    exact .inr (.overran rfl (by rw [hrun]) hbad)
  | @complete c₁ node id body pre post hrest hpre hrun hw hhead hs hnode hk he =>
    subst hrest
    have happ (bs : List UInt8) : srv.format.run d (pre ++ bs) =
        ((srv.format.run (.head []) bs).1, (id, body) :: (srv.format.run (.head []) bs).2) := by
      rw [Format.run_append, hrun]; rfl
    rcases finishBody_out happ hw hs hnode hhead with
      ⟨c', hf, hpost, hw', hrep, ho, hdid⟩ | ⟨hlast, hout⟩
    · rw [hk.1] at ho hdid
      exact .inl ⟨c', id, body, pre, post, hf, rfl, hpre, hpost, hrun, hw', hrep, ho,
        hdid.of_kept hk he⟩
    · right
      rw [hk.1] at hlast hout
      have hall : deliverAll srv (srv.format.run d (pre ++ post)).2 c.session.ext =
          srv.deliver (bodyNode id body) c.session.ext := by
        rw [happ]
        rcases hlast with rfl | hlast
        · exact Delivery.andThen_nil _
        · exact Delivery.andThen_stop hlast
      rw [hall]
      exact hout.of_kept hk he

theorem whileLoop_out (fuel : Nat) {c : Call ε} {d : Decoder} {rest : List UInt8}
    (hfuel : rest.length < fuel) (hne : rest ≠ []) (w : Window c rest) (h : Rep srv c.session d)
    (hd : d.Live) :
    CallOut srv c d rest (deliverAll srv (srv.format.run d rest).2 c.session.ext)
      (whileLoop srv fuel c) := by
  induction fuel generalizing c d rest with
  | zero => omega
  | succ fuel ih =>
    have hpos : 0 < c.bytesTransferred := by rw [w.count]; exact List.length_pos_iff.mpr hne
    simp only [whileLoop, hpos, if_true]
    rcases iteration_out w h hd with
      ⟨c', id, body, pre, post, hit, rfl, hpre, hpost, hrun, hw, hrep, ho, hdid⟩ | hout
    · rw [hit]
      have hpl := List.length_pos_iff.mpr hpre
      rw [List.length_append] at hfuel
      have htail := ih (by omega) hpost hw hrep trivial
      rw [hdid.1] at htail
      rw [Format.run_append, hrun]
      exact CallOut.andThen (by rw [Format.run_append, hrun]) ho hdid htail
    · generalize iteration srv c = f at hout
      cases hout with
      | armed ho hl hrep hdid => exact .armed ho hl hrep hdid
      | cleared ho hst hi hdid => exact .cleared ho hst hi hdid
      | threw ho hst hi hdid => exact .threw ho hst hi hdid
      | overran ho hst hbad => exact .overran ho hst hbad
      | deliveryThrew ho hdid => exact .deliveryThrew ho hdid
      | deliveryCrashed ho => exact .deliveryCrashed ho

/-- **One call.** From a session that represents a live decoder state, a call
on `chunk` runs the decoder over it and delivers what that completes. -/
theorem handleRead_sound {d : Decoder} {chunk : List UInt8} (h : Rep srv s d) (hd : d.Live)
    (hne : chunk ≠ []) (hle : chunk.length ≤ 2048) :
    CallOut srv (enter s chunk) d chunk (deliverAll srv (srv.format.run d chunk).2 s.ext)
      (handleRead srv s chunk) := by
  have hrep : Rep srv (enter s chunk).session d := by cases d <;> exact h
  exact whileLoop_out _ (by omega) hne (window_enter s hle) hrep hd

/-- A pass that goes round again has not touched `_data`. -/
theorem parse_data (h : parse srv c = .next c') : c'.session.data = c.session.data := by
  unfold parse parseHeadPhase startBody parseBodyPhase at h
  simp only at h
  repeat' split at h
  all_goals cases h
  all_goals rfl

theorem finishBody_data (h : finishBody srv c = .next c') :
    c'.session.data = c.session.data := by
  unfold finishBody at h
  simp only at h
  repeat' split at h
  all_goals cases h
  all_goals rfl

theorem iteration_data (h : iteration srv c = .next c') : c'.session.data = c.session.data := by
  unfold iteration at h
  cases hp : parse srv c with
  | next c₁ =>
    rw [hp] at h
    exact (finishBody_data h).trans (parse_data hp)
  | ret | throw | crash => rw [hp] at h; cases h

/-- The loop is entered, and entered again, with a live decoder state and the
unread rest of the chunk in the window. -/
theorem loopHead_sound {d : Decoder} {chunk : List UInt8} (h : Rep srv s d) (hd : d.Live)
    (hle : chunk.length ≤ 2048) (hhead : LoopHead srv s chunk c) :
    c.session.data = chunk ∧ ∃ d' rest, d'.Live ∧ Rep srv c.session d' ∧ Window c rest := by
  induction hhead with
  | enter => exact ⟨rfl, d, chunk, hd, by cases d <;> exact h, window_enter s hle⟩
  | next hc hpos hit ih =>
    obtain ⟨hdata, d', rest, hd', hrep, w⟩ := ih
    rcases iteration_out w hrep hd' with
      ⟨c'', id, body, pre, post, hit', hrest, -, -, -, w', hrep', -⟩ | hout
    · rw [hit] at hit'
      cases hit'
      exact ⟨(iteration_data hit).trans hdata, .head [], post, trivial, hrep', w'⟩
    · rw [hit] at hout
      cases hout

end

end DdsAuto.Asio
