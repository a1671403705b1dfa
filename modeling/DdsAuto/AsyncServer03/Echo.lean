import DdsAuto.Asio.Answer

/-!
# The echo of asyncserver01

AsyncServer03's `CSession` sends each body back with its length in front; the
length is a `short` in host order.
-/

namespace DdsAuto.AsyncServer03

open CInt Memory Framing Asio Lts

/-- `MsgNode(char*, short)`. -/
def msgNode (msg : List UInt8) (maxLen : Int) : Except SendFailure MsgNode :=
  MsgNode.withLength (shortBytes maxLen) msg maxLen

/-- `Send`; its `int` length becomes a `short` on the way to `MsgNode`. -/
def send (msg : List UInt8) (maxLength : Int) (w : Writer) : Delivery Writer :=
  match msgNode msg (toShort maxLength) with
  | .error .badArrayNewLength => { ext := w, events := [], accesses := [], outcome := .threw }
  | .error .wildCopy => { ext := w, events := [], accesses := [], outcome := .crashed }
  | .ok node =>
    { ext := w.push node
      events := []
      accesses := MsgNode.withLengthAccesses msg (toShort maxLength)
      outcome := .returned }

def server : Server Writer := lengthServer hostLength fun node w => send node.data node.totalLen w

/-- One session with its peer. -/
def system (input : List (List UInt8)) : Lts (Link Writer) Handler :=
  link server Writer.handleWrite .init input

/-- The length of a body in host order. -/
def head (body : List UInt8) : List UInt8 := shortBytes body.length

def frame (body : List UInt8) : List UInt8 := head body ++ body

variable {body : List UInt8} {chunks bodies : List (List UInt8)} {s : Link Writer}

/-- `Send` queues the frame of the body it is given. -/
theorem send_frame (h : body.length ≤ 2048) (w : Writer) : ∃ node accesses,
    send (body ++ [0]) body.length w = ⟨w.push node, [], accesses, .returned⟩ ∧ Safe accesses ∧
      node.buffer = frame body := by
  have hshort : toShort body.length = body.length := toShort_natCast body.length (by omega)
  have hnode : msgNode (body ++ [0]) body.length =
      .ok { curLen := 0, totalLen := body.length + 2, data := head body ++ body ++ [0] } :=
    MsgNode.withLength_ok rfl (by omega) [0]
  rw [send, hshort, hnode]
  exact ⟨_, _, rfl, MsgNode.withLengthAccesses_safe (by omega) [0],
    MsgNode.buffer_withLength rfl⟩

theorem delivers :
    Delivers server Writer.handleWrite fun bodies w => WriterOk (bodies.map frame) w where
  deliver bodies w id body hw hlen := by
    obtain ⟨node, accesses, hsend, hsafe, hbuffer⟩ := send_frame hlen w
    refine ⟨w.push node, accesses, hsend, hsafe, ?_⟩
    rw [List.map_append, List.map_singleton, ← hbuffer]
    exact hw.push node
  written _ _ _ hw hstep := hw.handleWrite hstep

/-- At most one write is outstanding and what is handed over is a prefix of the
frames received, and all of them when every chunk has been read and no write is
outstanding; until then a handler can be called. -/
theorem echo_exact (hc : Carries head chunks bodies) (h : (system chunks).Reachable anyStep s) :
    s.session.ext.writes ≤ 1 ∧ s.session.ext.handed.flatten <+: bodies.flatMap frame ∧
      (s.input = [] → s.session.ext.writes = 0 →
        s.session.ext.handed.flatten = bodies.flatMap frame) ∧
      (s.input ≠ [] → ∃ s', (system chunks).step s .handleRead = some s') ∧
      (s.session.ext.writes ≠ 0 → ∃ s', (system chunks).step s .handleWrite = some s') := by
  obtain ⟨done, d, hs⟩ := reachable_answering delivers hc (fun _ hlen => encodes_length rfl
    (loadShort_shortBytes ⟨by omega, by omega⟩) hlen) writerOk_init h
  have hflat : (done.map frame).flatten = done.flatMap frame := List.flatMap_def.symm
  refine ⟨hs.ext.writes_le, ?_, fun hin hw => ?_, fun hin => ?_, fun hw => ?_⟩
  · have hpre := hs.ext.handed.prefix_flatten
    rw [hflat] at hpre
    rw [← hs.left, List.flatMap_append]
    exact hpre.trans (List.prefix_append _ _)
  · have hleft := hs.left
    rw [hin, List.flatten_nil, Format.run_nil, List.map_nil, List.append_nil] at hleft
    rw [hs.ext.all_handed hw, hflat, hleft]
  · obtain ⟨chunk, input, hin⟩ := List.exists_cons_of_ne_nil hin
    obtain ⟨c, s', _, _, -, -, hstep, -⟩ := hs.handleRead delivers hc.bodyLe hin
    exact ⟨s', hstep⟩
  · simp only [system, link, Link.step, Writer.handleWrite, if_pos (Nat.pos_of_ne_zero hw)]
    exact ⟨_, rfl⟩

/-- Two bodies, the second of them empty, in one chunk, and the start of a third. -/
theorem carries_two : Carries head [[1, 0, 7, 0, 0, 9]] [[7], []] where
  chunkOk := by decide
  bodyLe := by decide
  stream := ⟨[9], [0] ++ List.replicate 9 0, List.replicate 9 0, by decide +kernel,
    by decide +kernel, by decide, by decide⟩

/-- Both replies of the one call have been handed over after the first completion. -/
theorem echo_exact_two : ∃ s, (system [[1, 0, 7, 0, 0, 9]]).Reachable anyStep s ∧
    s.input = [] ∧ s.session.ext.writes = 1 ∧
    s.session.ext.handed.flatten <+: [[7], []].flatMap frame := by
  obtain ⟨s, hs, hcheck⟩ := reachable_of_exec (system [[1, 0, 7, 0, 0, 9]])
    [.handleRead, .handleWrite] (fun s => s.input.isEmpty && s.session.ext.writes == 1)
    (by decide +kernel)
  rw [Bool.and_eq_true, List.isEmpty_iff, beq_iff_eq] at hcheck
  exact ⟨s, hs, hcheck.1, hcheck.2, (echo_exact carries_two hs).2.1⟩

end DdsAuto.AsyncServer03
