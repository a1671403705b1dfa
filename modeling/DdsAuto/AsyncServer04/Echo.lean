import DdsAuto.Asio.Answer

/-!
# AsyncServer04 and its client

The client writes messages with their length in network order in front, and a thread
of its own reads the replies. `CSession` sends each body back the same way, except that
`Send` drops it where more than `MAX_SENDQUE` messages wait to be written.
-/

namespace DdsAuto.AsyncServer04

open CInt Memory Framing Asio Lts

/-- The length of a body in network order. -/
def head (body : List UInt8) : List UInt8 := shortBytes (hostToNetworkShort body.length)

def frame (body : List UInt8) : List UInt8 := head body ++ body

-- ---------------------------------------------------------------------------
-- The server
-- ---------------------------------------------------------------------------

/-- `dropped` are the messages for which the queue had no room. -/
structure Sender where
  writer : Writer
  dropped : List (List UInt8)

/-- `MsgNode(char*, short)`. -/
def msgNode (msg : List UInt8) (maxLen : Int) : Except SendFailure MsgNode :=
  MsgNode.withLength (shortBytes (hostToNetworkShort maxLen)) msg maxLen

/-- `Send`; its `int` length becomes a `short` on the way to `MsgNode`. -/
def send (msg : List UInt8) (maxLength : Int) (s : Sender) : Delivery Sender :=
  if s.writer.sendQue.length > maxSendque then
    { ext := { s with dropped := s.dropped ++ [load msg 0 maxLength.toNat] }
      events := []
      accesses := []
      outcome := .returned }
  else
    match msgNode msg (toShort maxLength) with
    | .error .badArrayNewLength => { ext := s, events := [], accesses := [], outcome := .threw }
    | .error .wildCopy => { ext := s, events := [], accesses := [], outcome := .crashed }
    | .ok node =>
      { ext := { s with writer := s.writer.push node }
        events := []
        accesses := MsgNode.withLengthAccesses msg (toShort maxLength)
        outcome := .returned }

def server : Server Sender :=
  lengthServer networkLength fun node s => send node.data node.totalLen s

def handleWrite (s : Sender) : Option Sender :=
  s.writer.handleWrite.map fun writer => { s with writer }

/-- One session with its peer. -/
def system (input : List (List UInt8)) : Lts (Link Sender) Handler :=
  link server handleWrite ⟨.init, []⟩ input

-- ---------------------------------------------------------------------------
-- The client
-- ---------------------------------------------------------------------------

/-- `send_thread`, with any requests that fit in `send_data`. -/
def sendThread (requests : List (List UInt8)) : List UInt8 := requests.flatMap frame

/-- `recv_thread` on the bytes that have come, a step of `fuel` for each reply. Where a
`read` waits for more, or would overrun `msg`, there is nothing further. -/
def recvFuel : Nat → List UInt8 → List (List UInt8)
  | 0, _ => []
  | fuel + 1, bytes =>
    let msglen := networkToHostShort (loadShort bytes)
    let rest := bytes.drop 2
    if bytes.length < 2 ∨ msglen < 0 ∨ maxLength < msglen ∨ (rest.length : Int) < msglen then []
    else rest.take msglen.toNat :: recvFuel fuel (rest.drop msglen.toNat)

def recvThread (bytes : List UInt8) : List (List UInt8) := recvFuel bytes.length bytes

-- ---------------------------------------------------------------------------
-- What the queue keeps
-- ---------------------------------------------------------------------------

/-- Messages, each with whether it was echoed. -/
abbrev Marked := List (List UInt8 × Bool)

def echoed (marked : Marked) : List (List UInt8) := (marked.filter (·.2)).map (·.1)

structure SenderOk (bodies : List (List UInt8)) (s : Sender) (marked : Marked) : Prop where
  all : marked.map (·.1) = bodies
  writer : WriterOk ((echoed marked).map frame) s.writer
  dropped : s.dropped = (marked.filter (!·.2)).map (·.1)
  few : bodies.length ≤ maxSendque + 1 → s.dropped = []

variable {body arrived : List UInt8} {chunks bodies requests : List (List UInt8)}
variable {s : Link Sender} {marked : Marked}

theorem loadShort_head (h : body.length ≤ 2048) :
    networkToHostShort (loadShort (head body)) = body.length := by
  rw [networkToHostShort_loadShort, head, bigEndianShort_shortBytes ⟨by omega, by omega⟩]

theorem networkToHostShort_frame (h : body.length ≤ 2048) (tail : List UInt8) :
    networkToHostShort (loadShort (frame body ++ tail)) = body.length := by
  have hhead : (head body).length = 2 := length_shortBytes _
  rw [networkToHostShort_loadShort, frame, List.append_assoc,
    bigEndianShort_append _ _ (Nat.le_of_eq hhead.symm), ← networkToHostShort_loadShort,
    loadShort_head h]

theorem length_frame (body : List UInt8) : (frame body).length = body.length + 2 := by
  rw [frame, List.length_append, head, length_shortBytes, Nat.add_comm]

/-- What waits in the queue has been echoed. -/
theorem length_sendQue_le {all : List (List UInt8)} {w : Writer} (h : WriterOk all w) :
    w.sendQue.length ≤ all.length := by
  obtain ⟨⟨through, hall, -⟩, -⟩ := h.handed
  have hlen := congrArg List.length hall
  rw [List.length_append, List.length_map] at hlen
  omega

theorem senderOk_init : ∃ marked, SenderOk [] ⟨.init, []⟩ marked :=
  ⟨[], rfl, writerOk_init, rfl, fun _ => rfl⟩

theorem delivers :
    Delivers server handleWrite fun bodies s => ∃ marked, SenderOk bodies s marked where
  deliver bodies s id body hs hlen := by
    obtain ⟨marked, hs⟩ := hs
    have hshort : toShort body.length = body.length := toShort_natCast body.length (by omega)
    by_cases hfull : s.writer.sendQue.length > maxSendque
    · refine ⟨{ s with dropped := s.dropped ++ [body] }, [], ?_, safe_nil,
        marked ++ [(body, false)], ?_, ?_, ?_, fun hfew => ?_⟩
      · have hload : load (body ++ [0]) 0 (body.length : Int).toNat = body := load_append body [0]
        show send (body ++ [0]) body.length s = _
        rw [send, if_pos hfull, hload]
      · rw [List.map_append, hs.all]
        rfl
      · simpa [echoed] using hs.writer
      · rw [hs.dropped]
        simp
      · have hle := length_sendQue_le hs.writer
        have hmarked := congrArg List.length hs.all
        have hfilter : (marked.filter (·.2)).length ≤ marked.length := List.length_filter_le ..
        simp only [echoed, List.length_map] at hle hmarked
        rw [List.length_append, List.length_singleton] at hfew
        omega
    · let node : MsgNode :=
        { curLen := 0, totalLen := body.length + 2, data := head body ++ body ++ [0] }
      have hnode : msgNode (body ++ [0]) body.length = .ok node :=
        MsgNode.withLength_ok rfl (by omega) [0]
      refine ⟨{ s with writer := s.writer.push node },
        MsgNode.withLengthAccesses (body ++ [0]) body.length, ?_,
        MsgNode.withLengthAccesses_safe (by omega) [0], marked ++ [(body, true)], ?_, ?_, ?_,
        fun hfew => ?_⟩
      · show send (body ++ [0]) body.length s = _
        rw [send, if_neg hfull, hshort, hnode]
      · rw [List.map_append, hs.all]
        rfl
      · have hpush := hs.writer.push node
        rw [MsgNode.buffer_withLength rfl] at hpush
        simpa [echoed, frame] using hpush
      · rw [hs.dropped]
        simp
      · refine hs.few ?_
        rw [List.length_append, List.length_singleton] at hfew
        omega
  written bodies s s' hs hstep := by
    obtain ⟨marked, hs⟩ := hs
    simp only [handleWrite, Option.map_eq_some_iff] at hstep
    obtain ⟨writer, hwriter, rfl⟩ := hstep
    exact ⟨marked, hs.all, hs.writer.handleWrite hwriter, hs.dropped, hs.few⟩

-- ---------------------------------------------------------------------------
-- The client reads back what was framed
-- ---------------------------------------------------------------------------

theorem recvFuel_frame {fuel : Nat} {tail : List UInt8} (h : body.length ≤ 2048) :
    recvFuel (fuel + 1) (frame body ++ tail) = body :: recvFuel fuel tail := by
  have hread := networkToHostShort_frame h tail
  have hdrop : (frame body ++ tail).drop 2 = body ++ tail := by
    rw [frame, List.append_assoc]
    exact List.drop_left' (length_shortBytes _)
  have hlen := length_frame body
  have hmax : maxLength = 2048 := rfl
  simp only [recvFuel, hread, hdrop, List.length_append, hlen]
  rw [if_neg (by omega), Int.toNat_natCast, List.take_left, List.drop_left]

/-- Less than a frame gives no reply. -/
theorem recvFuel_part {fuel : Nat} {part rest : List UInt8} (h : body.length ≤ 2048)
    (hpart : part ++ rest = frame body) (hrest : rest ≠ []) : recvFuel fuel part = [] := by
  cases fuel with
  | zero => rfl
  | succ fuel =>
    have hpos := List.length_pos_iff.mpr hrest
    have hlen := congrArg List.length hpart
    rw [List.length_append, length_frame] at hlen
    rw [recvFuel]
    by_cases hhead : part.length < 2
    · rw [if_pos (.inl hhead)]
    · have hread : networkToHostShort (loadShort part) = body.length := by
        rw [networkToHostShort_loadShort, ← bigEndianShort_append part rest (by omega), hpart,
          ← networkToHostShort_loadShort, ← List.append_nil (frame body), networkToHostShort_frame h]
      rw [hread, List.length_drop, if_pos (by omega)]

theorem recvFuel_prefix {fuel : Nat} (h : ∀ body ∈ bodies, body.length ≤ 2048)
    (harrived : arrived <+: bodies.flatMap frame) (hfuel : arrived.length ≤ fuel) :
    recvFuel fuel arrived <+: bodies ∧
      (arrived = bodies.flatMap frame → recvFuel fuel arrived = bodies) := by
  induction bodies generalizing arrived fuel with
  | nil =>
    have hnil := List.prefix_nil.mp harrived
    subst hnil
    cases fuel <;> simp [recvFuel]
  | cons body bodies ih =>
    obtain ⟨hbody, hbodies⟩ := List.forall_mem_cons.mp h
    rw [List.flatMap_cons] at harrived ⊢
    by_cases hle : (frame body).length ≤ arrived.length
    · obtain ⟨tail, rfl⟩ : frame body <+: arrived :=
        List.prefix_of_prefix_length_le (List.prefix_append _ _) harrived hle
      rw [List.prefix_append_right_inj] at harrived
      rw [List.length_append, length_frame] at hfuel
      obtain ⟨fuel, rfl⟩ := Nat.exists_eq_add_one_of_ne_zero (show fuel ≠ 0 by omega)
      have hless : tail.length ≤ fuel := by omega
      obtain ⟨hpre, hall⟩ := ih hbodies harrived hless
      rw [recvFuel_frame hbody]
      refine ⟨List.cons_prefix_cons.mpr ⟨rfl, hpre⟩, fun heq => ?_⟩
      rw [hall (List.append_cancel_left heq)]
    · obtain ⟨rest, hrest⟩ : arrived <+: frame body :=
        List.prefix_of_prefix_length_le harrived (List.prefix_append _ _) (by omega)
      have hne : rest ≠ [] := by
        rintro rfl
        rw [List.append_nil] at hrest
        exact hle (Nat.le_of_eq (congrArg List.length hrest).symm)
      rw [recvFuel_part hbody hrest hne]
      refine ⟨List.nil_prefix, fun heq => absurd ?_ hle⟩
      rw [heq, List.length_append]
      exact Nat.le_add_right _ _

-- ---------------------------------------------------------------------------
-- The session and the client
-- ---------------------------------------------------------------------------

theorem echoed_length_le (hmarked : marked.map (·.1) = bodies)
    (h : ∀ body ∈ bodies, body.length ≤ n) : ∀ body ∈ echoed marked, body.length ≤ n := by
  intro body hbody
  obtain ⟨m, hm, rfl⟩ := List.mem_map.mp hbody
  exact h _ (hmarked ▸ List.mem_map_of_mem (List.mem_filter.mp hm).1)

/-- However the stream is cut, the client reads back its requests in order, but for those
the queue had no room for, and none is without room where they are 1001 at most. When
nothing is outstanding all of them have been echoed or dropped; until then a handler can
be called. -/
theorem client_gets_echo (hlen : ∀ request ∈ requests, request.length ≤ maxLength - 2)
    (hok : ∀ chunk ∈ chunks, ChunkOk chunk) (hsent : chunks.flatten = sendThread requests)
    (h : (system chunks).Reachable anyStep s)
    (harrived : arrived <+: s.session.ext.writer.handed.flatten) :
    s.session.ext.writer.writes ≤ 1 ∧
      (∃ marked : Marked, marked.map (·.1) <+: requests ∧ recvThread arrived <+: echoed marked ∧
        s.session.ext.dropped = (marked.filter (!·.2)).map (·.1) ∧
        (s.input = [] → s.session.ext.writer.writes = 0 → marked.map (·.1) = requests ∧
          (arrived = s.session.ext.writer.handed.flatten → recvThread arrived = echoed marked))) ∧
      (requests.length ≤ maxSendque + 1 → s.session.ext.dropped = []) ∧
      (s.input ≠ [] → ∃ s', (system chunks).step s .handleRead = some s') ∧
      (s.session.ext.writer.writes ≠ 0 → ∃ s', (system chunks).step s .handleWrite = some s') := by
  have hmax : maxLength = 2048 := rfl
  have hle : ∀ request ∈ requests, request.length ≤ 2048 := fun request hr => by
    have := hlen request hr
    omega
  have hc : Carries head chunks requests :=
    ⟨hok, hle, [], frame [], [], by rw [hsent, List.append_nil]; rfl, rfl, List.cons_ne_nil _ _,
      Nat.zero_le _⟩
  obtain ⟨done, d, hs⟩ := reachable_answering delivers hc (fun body hbody => encodes_length rfl
    (loadShort_head hbody) hbody) senderOk_init h
  obtain ⟨marked, hext⟩ := hs.ext
  have hdone : done <+: requests := hs.left ▸ List.prefix_append _ _
  have hframes : ((echoed marked).map frame).flatten = (echoed marked).flatMap frame :=
    List.flatMap_def.symm
  have hread := recvFuel_prefix (echoed_length_le hext.all fun body hb => hle body (hdone.subset hb))
    (hframes ▸ harrived.trans hext.writer.handed.prefix_flatten) (Nat.le_refl _)
  refine ⟨hext.writer.writes_le, ⟨marked, hext.all ▸ hdone, hread.1, hext.dropped,
    fun hin hw => ⟨?_, fun heq => hread.2 ?_⟩⟩, fun hfew => hext.few ?_, fun hin => ?_, fun hw => ?_⟩
  · have hleft := hs.left
    rw [hin, List.flatten_nil, Format.run_nil, List.map_nil, List.append_nil] at hleft
    rw [hext.all, hleft]
  · rw [heq, hext.writer.all_handed hw, hframes]
  · exact Nat.le_trans hdone.length_le hfew
  · obtain ⟨chunk, input, hin⟩ := List.exists_cons_of_ne_nil hin
    obtain ⟨c, s', _, _, -, -, hstep, -⟩ := hs.handleRead delivers hc.bodyLe hin
    exact ⟨s', hstep⟩
  · simp only [system, link, Link.step, handleWrite, Writer.handleWrite,
      if_pos (Nat.pos_of_ne_zero hw)]
    exact ⟨_, rfl⟩

/-- Two requests, the length of the first one cut in the middle. -/
theorem client_gets_echo_two : ∃ s, (system [[0], [2, 72, 105, 0, 1, 33]]).Reachable anyStep s ∧
    s.session.ext.dropped = [] ∧
    ∃ marked : Marked, marked.map (·.1) = [[72, 105], [33]] ∧
      recvThread s.session.ext.writer.handed.flatten = echoed marked := by
  obtain ⟨s, hs, hcheck⟩ := reachable_of_exec (system [[0], [2, 72, 105, 0, 1, 33]])
    [.handleRead, .handleRead, .handleWrite, .handleWrite]
    (fun s => s.input.isEmpty && s.session.ext.writer.writes == 0) (by decide +kernel)
  rw [Bool.and_eq_true, List.isEmpty_iff, beq_iff_eq] at hcheck
  have hlen : ∀ request ∈ ([[72, 105], [33]] : List (List UInt8)),
      request.length ≤ maxLength - 2 := by decide
  obtain ⟨-, ⟨marked, -, -, -, hall⟩, hfew, -⟩ :=
    client_gets_echo hlen (by decide) (by decide +kernel) hs List.prefix_rfl
  obtain ⟨hmarked, hread⟩ := hall hcheck.1 hcheck.2
  exact ⟨s, hs, hfew (by decide), marked, hmarked, hread rfl⟩

end DdsAuto.AsyncServer04
