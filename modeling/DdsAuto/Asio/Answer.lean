import DdsAuto.Asio.IdHeader
import DdsAuto.Lib.Lts
import DdsAuto.Lib.Outgoing

/-!
# Sessions that answer in `HandleRead`

Two of the servers have no logic thread: `HandleRead` calls `Send` for each
message, and `HandleWrite` goes on with the queue. Their headers are the two
bytes of a length. A call of a handler is one step of a `Link`; what the peer
sends comes as chunks.
-/

namespace DdsAuto.Asio

open CInt Memory Framing Lts

-- ---------------------------------------------------------------------------
-- Headers of a length
-- ---------------------------------------------------------------------------

/-- A `short` in the first two bytes. -/
structure LengthField where
  read : List UInt8 → Int
  read_take : ∀ data, read (data.take 2) = read data
  isShort : ∀ data, IsShort (read data)

/-- The length in host order. -/
def hostLength : LengthField where
  read := loadShort
  read_take _ := loadShort_take (Nat.le_refl 2)
  isShort := loadShort_isShort

/-- The length in network order. -/
def networkLength : LengthField where
  read data := networkToHostShort (loadShort data)
  read_take data := by
    have hload : loadShort (data.take 2) = loadShort data := loadShort_take (Nat.le_refl 2)
    rw [hload]
  isShort data := by
    rw [networkToHostShort_loadShort]
    exact bigEndianShort_isShort data

/-- The check of a header. It gives no message id. -/
def lengthHeader (field : LengthField) (data : List UInt8) : Option (Int × Int) :=
  let dataLen := field.read data
  if dataLen > maxLength then none else some (dataLen, 0)

theorem lengthHeader_len {field : LengthField}
    (h : lengthHeader field data = some (msgLen, msgId)) :
    IsShort msgLen ∧ msgLen ≤ 2048 := by
  simp only [lengthHeader] at h
  split at h
  · cases h
  · rename_i hle
    cases h
    exact ⟨field.isShort data, Int.not_lt.mp hle⟩

/-- The servers with this header. Their `MsgNode(short)` only zeroes its block;
with that the node is the same as where the terminator is stored once more. -/
def lengthServer (field : LengthField) (deliver : RecvNode → ε → Delivery ε) : Server ε where
  headTotalLen := 2
  headTotalLen_pos := by decide
  headTotalLen_le := by decide
  parseHead := lengthHeader field
  parseHead_take data _ := by simp only [lengthHeader, field.read_take]
  parseHead_len := lengthHeader_len
  deliver := deliver

theorem lengthHeader_body {field : LengthField} {len : Nat} (hread : field.read data = len)
    (hlen : len ≤ 2048) : lengthHeader field data = some ((len : Int), 0) := by
  have hle : (len : Int) ≤ maxLength := Int.ofNat_le.mpr hlen
  simp only [lengthHeader, hread, if_neg (Int.not_lt.mpr hle)]

/-- The decoder reads the length of a frame back. -/
theorem encodes_length {field : LengthField} {deliver : RecvNode → ε → Delivery ε}
    {head : List UInt8 → List UInt8} (hsize : (head body).length = 2)
    (hread : field.read (head body) = body.length) (hlen : body.length ≤ 2048) :
    (lengthServer field deliver).format.Encodes (fun _ body => head body) (0, body) :=
  ⟨hsize, verdict_body (lengthHeader_body hread hlen)⟩

-- ---------------------------------------------------------------------------
-- Nodes with their length in front
-- ---------------------------------------------------------------------------

/-- `MsgNode(msg, max_len)`; `head` are the two bytes of the length. -/
def MsgNode.withLength (head msg : List UInt8) (maxLen : Int) : Except SendFailure MsgNode :=
  match MsgNode.new (toShort (maxLen + 2)) with
  | none => .error .badArrayNewLength
  | some node =>
    if maxLen < 0 then .error .wildCopy
    else .ok ((node.store 0 head).store 2 (load msg 0 maxLen.toNat))

/-- The accesses of the constructor where it returns. -/
def MsgNode.withLengthAccesses (msg : List UInt8) (maxLen : Int) : List Access :=
  let size := toShort (maxLen + 2) + 1
  MsgNode.newAccesses (toShort (maxLen + 2)) ++
    [.store 0 2 size, .load 0 maxLen.toNat msg.length, .store 2 maxLen.toNat size]

theorem MsgNode.withLength_ok {head msg : List UInt8} (hhead : head.length = 2)
    (hlen : msg.length ≤ 32765) (tail : List UInt8) :
    MsgNode.withLength head (msg ++ tail) msg.length =
      .ok { curLen := 0, totalLen := msg.length + 2, data := head ++ msg ++ [0] } := by
  have htotal : toShort (msg.length + 2) = ((msg.length + 2 : Nat) : Int) :=
    toShort_natCast (msg.length + 2) (by omega)
  have hload : load (msg ++ tail) 0 (msg.length : Int).toNat = msg := load_append msg tail
  have hstore : Memory.store (List.replicate (msg.length + 2 + 1) 0) 0 head =
      head ++ List.replicate (msg.length + 1) 0 := by
    simpa [hhead] using
      store_append [] (List.replicate (msg.length + 2 + 1) 0) head (by simp [hhead])
  have hbody : Memory.store (head ++ List.replicate (msg.length + 1) 0) 2 msg =
      head ++ msg ++ [0] := by
    simpa [hhead] using store_append head (List.replicate (msg.length + 1) 0) msg (by simp)
  rw [MsgNode.withLength, htotal, MsgNode.new_ok]
  simp only [if_neg (Int.not_lt.mpr (Int.natCast_nonneg msg.length)), hload, MsgNode.store, hstore,
    hbody]
  rfl

theorem MsgNode.withLengthAccesses_safe {msg : List UInt8} (hlen : msg.length ≤ 32765)
    (tail : List UInt8) : Safe (MsgNode.withLengthAccesses (msg ++ tail) msg.length) := by
  have htotal : toShort (msg.length + 2) = ((msg.length + 2 : Nat) : Int) :=
    toShort_natCast (msg.length + 2) (by omega)
  rw [MsgNode.withLengthAccesses, htotal]
  simp [MsgNode.newAccesses, Access.InBounds]
  omega

theorem MsgNode.buffer_withLength {head msg : List UInt8} (hhead : head.length = 2) :
    (MsgNode.mk 0 (msg.length + 2) (head ++ msg ++ [0])).buffer = head ++ msg := by
  have hlen : ((msg.length : Int) + 2).toNat = (head ++ msg).length := by
    rw [List.length_append, hhead]
    omega
  rw [MsgNode.buffer, hlen, List.take_left]

-- ---------------------------------------------------------------------------
-- The write queue
-- ---------------------------------------------------------------------------

/-- `_send_que`, the calls of `async_write` outstanding, and the buffers handed
to `async_write` so far. -/
structure Writer where
  sendQue : List MsgNode
  writes : Nat
  handed : List (List UInt8)

def Writer.init : Writer := ⟨[], 0, []⟩

/-- `async_write` of the front of the queue. -/
def Writer.asyncWrite (w : Writer) : Writer :=
  match w.sendQue with
  | [] => w
  | msgnode :: _ => { w with writes := w.writes + 1, handed := w.handed ++ [msgnode.buffer] }

/-- The node joins the queue, and is written if it is the only one. -/
def Writer.push (w : Writer) (node : MsgNode) : Writer :=
  let w' := { w with sendQue := w.sendQue ++ [node] }
  if w.sendQue.length > 0 then w' else w'.asyncWrite

/-- `HandleWrite` with no error, called once for each write outstanding. -/
def Writer.handleWrite (w : Writer) : Option Writer :=
  if 0 < w.writes then
    let w' := { w with sendQue := w.sendQue.tail, writes := w.writes - 1 }
    some (if w'.sendQue.isEmpty then w' else w'.asyncWrite)
  else none

@[simp] theorem Writer.sendQue_asyncWrite (w : Writer) : w.asyncWrite.sendQue = w.sendQue := by
  unfold Writer.asyncWrite
  split <;> rfl

@[simp] theorem Writer.sendQue_push (w : Writer) (node : MsgNode) :
    (w.push node).sendQue = w.sendQue ++ [node] := by
  unfold Writer.push
  split <;> simp

theorem Writer.sendQue_handleWrite {w w' : Writer} (h : w.handleWrite = some w') :
    w'.sendQue = w.sendQue.tail := by
  simp only [Writer.handleWrite, Option.ite_none_right_eq_some, Option.some.injEq] at h
  obtain ⟨-, rfl⟩ := h
  split <;> simp

/-- The frames `all` are queued in order, the front one is with the one
`async_write` outstanding. -/
structure WriterOk (all : List (List UInt8)) (w : Writer) : Prop where
  writes : w.writes = if w.sendQue = [] then 0 else 1
  handed : Outgoing all (w.sendQue.map (·.buffer))
    ((w.sendQue.map (·.buffer)).headD []).length w.handed.flatten

section
variable {all : List (List UInt8)} {w w' : Writer} {node : MsgNode}

theorem writerOk_init : WriterOk [] Writer.init := ⟨rfl, Outgoing.init⟩

theorem WriterOk.writes_le (h : WriterOk all w) : w.writes ≤ 1 := by
  rw [h.writes]
  split <;> decide

/-- With no write outstanding and nothing of the front handed over, the front goes out. -/
theorem writerOk_asyncWrite (hw : w.writes = 0) (hq : w.sendQue = node :: que)
    (h : Outgoing all (w.sendQue.map (·.buffer)) 0 w.handed.flatten) :
    WriterOk all w.asyncWrite := by
  obtain ⟨sendQue, writes, handed⟩ := w
  simp only at hw hq
  subst hw hq
  refine ⟨rfl, ?_⟩
  simp only [Writer.asyncWrite, List.map_cons, List.headD_cons, List.flatten_append,
    List.flatten_singleton] at h ⊢
  exact h.sendAll

theorem WriterOk.push (h : WriterOk all w) (node : MsgNode) :
    WriterOk (all ++ [node.buffer]) (w.push node) := by
  obtain ⟨sendQue, writes, handed⟩ := w
  obtain ⟨hwrites, hhanded⟩ := h
  have hpush := hhanded.push node.buffer
  simp only at hwrites hpush
  cases sendQue with
  | nil => exact writerOk_asyncWrite (w := ⟨[node], writes, handed⟩) hwrites rfl hpush
  | cons front que =>
    have hlater : (Writer.mk (front :: que) writes handed).push node =
        ⟨front :: que ++ [node], writes, handed⟩ := by
      simp [Writer.push]
    rw [hlater]
    exact ⟨hwrites, by simpa using hpush⟩

theorem WriterOk.handleWrite (h : WriterOk all w) (hstep : w.handleWrite = some w') :
    WriterOk all w' := by
  obtain ⟨sendQue, writes, handed⟩ := w
  obtain ⟨hwrites, hhanded⟩ := h
  simp only [Writer.handleWrite, Option.ite_none_right_eq_some, Option.some.injEq] at hstep
  obtain ⟨hw, rfl⟩ := hstep
  simp only at hwrites hw hhanded
  cases sendQue with
  | nil =>
    rw [hwrites, if_pos rfl] at hw
    exact absurd hw (Nat.lt_irrefl 0)
  | cons node que =>
    rw [if_neg (List.cons_ne_nil node que)] at hwrites
    subst hwrites
    have hpop : Outgoing all (que.map (·.buffer)) 0 handed.flatten := hhanded.pop
    cases que with
    | nil => exact ⟨rfl, hpop⟩
    | cons next que => exact writerOk_asyncWrite (w := ⟨next :: que, 0, handed⟩) rfl rfl hpop

/-- With no write outstanding everything has been handed over. -/
theorem WriterOk.all_handed (h : WriterOk all w) (hw : w.writes = 0) :
    w.handed.flatten = all.flatten := by
  have hque : w.sendQue = [] := by
    by_contra hne
    have hone := h.writes
    rw [if_neg hne, hw] at hone
    cases hone
  have hhanded := h.handed
  rw [hque] at hhanded
  exact hhanded.eq_flatten

end

-- ---------------------------------------------------------------------------
-- Runs
-- ---------------------------------------------------------------------------

/-- `reads` counts the reads armed; `input` is what the peer has yet to send, cut
as the reads will deliver it. -/
structure Link (ε : Type) where
  session : Session ε
  reads : Nat
  input : List (List UInt8)

inductive Handler
  | handleRead
  | handleWrite
  deriving DecidableEq, Repr

section
variable {ε : Type} (srv : Server ε) (onWrite : ε → Option ε)

/-- A call that throws or overruns a buffer has no step. -/
def Link.step (s : Link ε) : Handler → Option (Link ε)
  | .handleRead =>
    match s.input with
    | [] => none
    | chunk :: input =>
      if 0 < s.reads then
        match handleRead srv s.session chunk with
        | .ret c => some
          { session := c.session
            reads := s.reads - 1 + c.events.count .asyncReadSome
            input := input }
        | _ => none
      else none
  | .handleWrite =>
    (onWrite s.session.ext).map fun ext => { s with session := { s.session with ext } }

/-- `Start` has armed the first read. -/
def link (ext : ε) (input : List (List UInt8)) : Lts (Link ε) Handler where
  init := ⟨.fresh srv ext, 1, input⟩
  step := Link.step srv onWrite

/-- The chunks carry frames with the bodies, `head` giving their headers, and
then a proper prefix of a frame. -/
structure Carries (head : List UInt8 → List UInt8) (chunks bodies : List (List UInt8)) : Prop where
  chunkOk : ∀ chunk ∈ chunks, ChunkOk chunk
  bodyLe : ∀ body ∈ bodies, body.length ≤ 2048
  stream : ∃ part rest body, chunks.flatten = bodies.flatMap (fun body => head body ++ body) ++ part ∧
    part ++ rest = head body ++ body ∧ rest ≠ [] ∧ body.length ≤ 2048

/-- `W bodies ext` holds after the messages `bodies`: each delivery comes to its
end and carries it on, and so does each completed write. -/
structure Delivers (W : List (List UInt8) → ε → Prop) : Prop where
  deliver : ∀ bodies ext id body, W bodies ext → body.length ≤ 2048 → ∃ ext' accesses,
    srv.deliver (bodyNode id body) ext = ⟨ext', [], accesses, .returned⟩ ∧ Safe accesses ∧
      W (bodies ++ [body]) ext'
  written : ∀ bodies ext ext', W bodies ext → onWrite ext = some ext' → W bodies ext'

/-- `d` is the decoder after the chunks read; the bodies it has not found yet
are in the chunks left. -/
structure Answering (W : List (List UInt8) → ε → Prop) (bodies done : List (List UInt8))
    (s : Link ε) (d : Decoder) : Prop where
  rep : Rep srv s.session d
  live : d.Live
  ends : (srv.format.run d s.input.flatten).1.Live
  chunkOk : ∀ chunk ∈ s.input, ChunkOk chunk
  armed : s.reads = 1
  ext : W done s.session.ext
  left : done ++ (srv.format.run d s.input.flatten).2.map (·.2) = bodies

end

section
variable {ε : Type} {srv : Server ε} {onWrite : ε → Option ε}
variable {W : List (List UInt8) → ε → Prop} {ext : ε} {head : List UInt8 → List UInt8}
variable {chunks bodies done : List (List UInt8)} {s s' : Link ε} {d : Decoder}

/-- The messages of one `HandleRead` are delivered in order. -/
theorem Delivers.deliverAll (ha : Delivers srv onWrite W) {msgs : List (Int × List UInt8)}
    (hlen : ∀ m ∈ msgs, m.2.length ≤ 2048) (h : W done ext) :
    ∃ ext' accesses, deliverAll srv msgs ext = ⟨ext', [], accesses, .returned⟩ ∧ Safe accesses ∧
      W (done ++ msgs.map (·.2)) ext' := by
  induction msgs generalizing done ext with
  | nil =>
    refine ⟨ext, [], rfl, safe_nil, ?_⟩
    rwa [List.map_nil, List.append_nil]
  | cons m msgs ih =>
    obtain ⟨ext₁, acc₁, hdeliver, hsafe₁, h₁⟩ := ha.deliver done ext m.1 m.2 h (hlen m (by simp))
    obtain ⟨ext₂, acc₂, hrest, hsafe₂, h₂⟩ := ih (fun m hm => hlen m (by simp [hm])) h₁
    refine ⟨ext₂, acc₁ ++ acc₂, ?_, safe_append.mpr ⟨hsafe₁, hsafe₂⟩, ?_⟩
    · rw [Asio.deliverAll, hdeliver, Delivery.andThen]
      simp only [hrest, List.nil_append]
    · rw [List.map_cons, List.append_cons]
      exact h₂

/-- The decoder finds `bodies` in the stream and is still live at its end. -/
theorem Carries.run (h : Carries head chunks bodies)
    (hhead : ∀ body, body.length ≤ 2048 →
      srv.format.Encodes (fun _ body => head body) (0, body)) :
    (srv.format.run (.head []) chunks.flatten).1.Live ∧
      (srv.format.run (.head []) chunks.flatten).2.map (·.2) = bodies := by
  obtain ⟨part, rest, body, hflat, hcut, hrest, hlen⟩ := h.stream
  have hencode : bodies.flatMap (fun body => head body ++ body) =
      Format.encode (fun _ body => head body) (bodies.map fun body => ((0 : Int), body)) := by
    rw [Format.encode, List.flatMap_map]
  have hframes : ∀ f ∈ bodies.map (fun body => ((0 : Int), body)),
      srv.format.Encodes (fun _ body => head body) f := by
    intro f hf
    obtain ⟨b, hb, rfl⟩ := List.mem_map.mp hf
    exact hhead b (h.bodyLe b hb)
  obtain ⟨d, hpart, hlive⟩ := Format.run_cut (hhead body hlen) hcut hrest
  rw [hflat, hencode, Format.run_append, Format.run_encode hframes, hpart]
  exact ⟨hlive, by simp [Function.comp_def]⟩

theorem answering_init (hc : Carries head chunks bodies)
    (hhead : ∀ body, body.length ≤ 2048 →
      srv.format.Encodes (fun _ body => head body) (0, body)) (hext : W [] ext) :
    Answering srv W bodies [] (link srv onWrite ext chunks).init (.head []) where
  rep := rep_fresh srv ext
  live := trivial
  ends := (hc.run hhead).1
  chunkOk := hc.chunkOk
  armed := rfl
  ext := hext
  left := (hc.run hhead).2

/-- Where the messages of the stream can be delivered, `HandleRead` delivers those of
its chunk, arms one read and stays in bounds. -/
theorem Answering.handleRead_of_deliverAll (h : Answering srv W bodies done s d)
    (hdeliver : ∀ msgs : List (Int × List UInt8), (∀ m ∈ msgs, m.2 ∈ bodies) →
      ∃ ext' accesses, Asio.deliverAll srv msgs s.session.ext = ⟨ext', [], accesses, .returned⟩ ∧
        Safe accesses ∧ W (done ++ msgs.map (·.2)) ext')
    (hin : s.input = chunk :: input) : ∃ c done' d',
      Asio.handleRead srv s.session chunk = .ret c ∧ Safe c.accesses ∧
      Answering srv W bodies done'
        ⟨c.session, s.reads - 1 + c.events.count .asyncReadSome, input⟩ d' := by
  have hends := h.ends
  have hleft := h.left
  have hchunks := h.chunkOk
  rw [hin, List.flatten_cons] at hends hleft
  rw [hin] at hchunks
  have hnext := Format.live_of_run_append hends
  rw [Format.run_append] at hends hleft
  rw [List.map_append, ← List.append_assoc] at hleft
  have hmem : ∀ m ∈ (srv.format.run d chunk).2, m.2 ∈ bodies := by
    intro m hm
    rw [← hleft]
    simp only [List.mem_append, List.mem_map]
    exact .inl (.inr ⟨m, hm, rfl⟩)
  obtain ⟨ext', accesses, hdel, hsafe, hext⟩ := hdeliver (srv.format.run d chunk).2 hmem
  obtain ⟨c, hret, hrep, hdid⟩ := handleRead_returned h.rep h.live (hchunks chunk (by simp)) hnext
    (by rw [hdel])
  have hevents := hdid.events_enter
  have hcallExt := hdid.1
  rw [hdel] at hevents hcallExt
  refine ⟨c, done ++ (srv.format.run d chunk).2.map (·.2), _, hret, ?_,
    hrep, hnext, hends, fun chunk hc => hchunks chunk (by simp [hc]), ?_, ?_, hleft⟩
  · rw [hdid.safe_enter, hdel]
    exact hsafe
  · simp [hevents, h.armed]
  · rw [hcallExt]
    exact hext

/-- `HandleRead` delivers its messages, arms one read and stays in bounds. -/
theorem Answering.handleRead (ha : Delivers srv onWrite W)
    (hb : ∀ body ∈ bodies, body.length ≤ 2048) (h : Answering srv W bodies done s d)
    (hin : s.input = chunk :: input) : ∃ c s' done' d',
      Asio.handleRead srv s.session chunk = .ret c ∧ Safe c.accesses ∧
      s.step srv onWrite .handleRead = some s' ∧ s'.input = input ∧
      Answering srv W bodies done' s' d' := by
  obtain ⟨c, done', d', hret, hsafe, hinv⟩ := h.handleRead_of_deliverAll
    (fun msgs hmem => ha.deliverAll (fun m hm => hb m.2 (hmem m hm)) h.ext) hin
  have hstep : s.step srv onWrite .handleRead = some
      ⟨c.session, s.reads - 1 + c.events.count .asyncReadSome, input⟩ := by
    simp only [Link.step, hin, h.armed, Nat.zero_lt_one, if_true, hret]
  exact ⟨c, _, done', d', hret, hsafe, hstep, rfl, hinv⟩

/-- A completed write changes nothing the decoder looks at. -/
theorem Answering.written (h : Answering srv W bodies done s d) (hext : W done ext) :
    Answering srv W bodies done { s with session := { s.session with ext } } d := by
  refine ⟨?_, h.live, h.ends, h.chunkOk, h.armed, hext, h.left⟩
  have hrep := h.rep
  cases d <;> exact hrep

theorem Answering.handleWrite (ha : Delivers srv onWrite W) (h : Answering srv W bodies done s d)
    (hstep : s.step srv onWrite .handleWrite = some s') :
    Answering srv W bodies done s' d := by
  simp only [Link.step, Option.map_eq_some_iff] at hstep
  obtain ⟨ext, hext, rfl⟩ := hstep
  exact h.written (ha.written _ _ _ h.ext hext)

/-- In every run on such a stream the messages delivered so far are the first
ones of the stream, and all of them once its chunks have been read. -/
theorem reachable_answering (ha : Delivers srv onWrite W) (hc : Carries head chunks bodies)
    (hhead : ∀ body, body.length ≤ 2048 →
      srv.format.Encodes (fun _ body => head body) (0, body)) (hext : W [] ext)
    (h : (link srv onWrite ext chunks).Reachable anyStep s) :
    ∃ done d, Answering srv W bodies done s d := by
  refine h.invariant (P := fun s => ∃ done d, Answering srv W bodies done s d)
    ⟨_, _, answering_init hc hhead hext⟩ ?_
  rintro s a s' ⟨done, d, hs⟩ - hstep
  cases a with
  | handleRead =>
    cases hin : s.input with
    | nil => simp [link, Link.step, hin] at hstep
    | cons chunk input =>
      obtain ⟨c, t, done', d', -, -, ht, -, hinv⟩ := hs.handleRead ha hc.bodyLe hin
      cases ht.symm.trans hstep
      exact ⟨done', d', hinv⟩
  | handleWrite => exact ⟨done, d, hs.handleWrite ha hstep⟩

end

end DdsAuto.Asio
