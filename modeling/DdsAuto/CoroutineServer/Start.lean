import DdsAuto.LogicServer.HandleRead

/-!
# `Start` of CoroutineServer

The coroutine reads a header, then a body, each with one `async_read` of the
exact size. A read of no bytes counts as the peer's end, so a frame with an
empty body ends the session; `start_agrees_iff`: on every other well-formed
stream the coroutine and the callback reader hand on the same messages.
-/

namespace DdsAuto.CoroutineServer

open CInt Memory Framing Asio LogicServer

/-- The members `Start` uses, the unread stream and what has been done. -/
structure Co where
  stream : List UInt8
  recvHeadNode : MsgNode
  recvMsgNode : Option RecvNode
  bClose : Bool
  events : List Event

/-- The coroutine is at the head of the loop, suspended in a read, or gone. -/
inductive CoFlow
  | next (c : Co)
  | waiting (c : Co)
  | returned (c : Co)

def CoFlow.co : CoFlow → Co
  | .next c | .waiting c | .returned c => c

/-- `async_read`: exactly `n` bytes, once that many have arrived. -/
def asyncRead (stream : List UInt8) (n : Nat) : Option (List UInt8 × List UInt8) :=
  if n ≤ stream.length then some (stream.take n, stream.drop n) else none

def Co.emit (c : Co) (e : Event) : Co := { c with events := c.events ++ [e] }

/-- `Close(); _server->ClearSession(_uuid)`. -/
def Co.close (c : Co) : Co := ({ c with bClose := true }.emit .close).emit .clearSession

/-- From the construction of `_recv_msg_node` on. -/
def readBody (c : Co) (msgLen msgId : Int) : CoFlow :=
  match RecvNode.new msgLen msgId with
  | none => .returned c.close
  | some node =>
    let c := { c with recvMsgNode := some node }
    match asyncRead c.stream (toSizeT node.totalLen) with
    | none => .waiting c
    | some (bytes, rest) =>
      let node := { node with toMsgNode := node.store 0 bytes }
      let c := { c with recvMsgNode := some node, stream := rest }
      if bytes.length = 0 then .returned c.close
      else
        let node := { node with toMsgNode := node.store node.totalLen [0] }
        .next ({ c with recvMsgNode := some node }.emit (.postMsgToQue node))

/-- What follows the checks of a header. -/
def readMsg (c : Co) : Option (Int × Int) → CoFlow
  | none => .returned (c.emit .clearSession)
  | some (msgLen, msgId) => readBody c msgLen msgId

/-- One pass of the `for` body. -/
def coIteration (c : Co) : CoFlow :=
  if c.bClose then .returned c
  else
    let c := { c with recvHeadNode := c.recvHeadNode.clear }
    match asyncRead c.stream 4 with
    | none => .waiting c
    | some (bytes, rest) =>
      let c := { c with recvHeadNode := c.recvHeadNode.store 0 bytes, stream := rest }
      if bytes.length = 0 then .returned c.close else readMsg c (idHeader c.recvHeadNode.data)

/-- The `for` loop; a result `next` is a loop still running when the fuel is
spent. -/
def coLoop : Nat → Co → CoFlow
  | 0, c => .next c
  | fuel + 1, c =>
    match coIteration c with
    | .next c => coLoop fuel c
    | f => f

def Co.fresh (stream : List UInt8) : Co where
  stream := stream
  recvHeadNode := { curLen := 0, totalLen := 4, data := List.replicate 5 0 }
  recvMsgNode := none
  bClose := false
  events := []

/-- The coroutine on a stream that has arrived; a pass reads four bytes at least. -/
def start (stream : List UInt8) : CoFlow := coLoop (stream.length + 1) (Co.fresh stream)

-- ---------------------------------------------------------------------------
-- What the callback is given
-- ---------------------------------------------------------------------------

/-- The id and bytes `DealMsg` passes on for a posted node, `len` being the
length it reads off the node. -/
def dispatch (len : RecvNode → Int) (nodes : List RecvNode) : List (Int × List UInt8) :=
  (nodes.filter fun node => node.msgId == msgHelloWord).map fun node =>
    (node.msgId, load node.data 0 (toSizeT (len node)))

/-- The coroutine leaves `_cur_len` alone, and `DealMsg` reads `_total_len`. -/
def coDispatched (f : CoFlow) : List (Int × List UInt8) :=
  dispatch (·.totalLen) (f.co.events.filterMap Event.posted)

def dispatched (calls : List (Handled Unit)) : List (Int × List UInt8) :=
  dispatch (·.curLen) (posts calls)

def closes : Event → Bool
  | .close | .clearSession => true
  | _ => false

-- ---------------------------------------------------------------------------
-- The coroutine on well-formed frames
-- ---------------------------------------------------------------------------

/-- The node the coroutine posts; nothing counts its bytes in `_cur_len`. -/
def coNode (id : Int) (body : List UInt8) : RecvNode where
  curLen := 0
  totalLen := body.length
  data := body ++ [0]
  msgId := id

structure Open (c : Co) : Prop where
  notClosed : c.bClose = false
  size : c.recvHeadNode.data.length = 5

section
variable {c : Co} {f : Int × List UInt8} {frames : List (Int × List UInt8)} {rest : List UInt8}

theorem asyncRead_append (as bs : List UInt8) : asyncRead (as ++ bs) as.length = some (as, bs) := by
  simp [asyncRead]

theorem readBody_frame (h : FrameOk f) (hs : c.stream = f.2 ++ rest) :
    (f.2 ≠ [] → ∃ c', readBody c f.2.length f.1 = .next c' ∧ c'.stream = rest ∧
      c'.recvHeadNode = c.recvHeadNode ∧ c'.bClose = c.bClose ∧
      c'.events = c.events ++ [.postMsgToQue (coNode f.1 f.2)]) ∧
    (f.2 = [] → ∃ c', readBody c f.2.length f.1 = .returned c' ∧
      c'.events = c.events ++ [.close, .clearSession]) := by
  have hlen : (f.2.length : Int) ≤ 2048 := h.2.2
  have hread : asyncRead c.stream (toSizeT f.2.length) = some (f.2, rest) := by
    rw [toSizeT_natCast _ (by omega), hs, asyncRead_append]
  have hfill : Memory.store (List.replicate (f.2.length + 1) 0) 0 f.2 = f.2 ++ [0] := by
    have hst := store_append [] (List.replicate (f.2.length + 1) 0) f.2 (by simp)
    simpa using hst
  have hend : Memory.store (f.2 ++ [0]) f.2.length [0] = f.2 ++ [0] := by
    have hst := store_append f.2 [0] [0] (by simp)
    simpa using hst
  rw [readBody, RecvNode.new_ok]
  simp only [RecvNode.zeros, hread]
  constructor
  · intro hne
    have hpos := List.length_pos_iff.mpr hne
    rw [if_neg (by omega)]
    refine ⟨_, rfl, rfl, rfl, rfl, ?_⟩
    simp [Co.emit, coNode, MsgNode.store, hfill, hend]
  · intro hnil
    rw [if_pos (by simp [hnil])]
    exact ⟨_, rfl, by simp [Co.close, Co.emit]⟩

/-- The header that was just read is the one that is checked. -/
theorem idHeader_store {node : MsgNode} (h : FrameOk f) (hsize : node.data.length = 5) :
    idHeader (node.store 0 (header f.1 f.2.length)).data = some ((f.2.length : Int), f.1) := by
  have hfit : (header f.1 f.2.length).length ≤ node.data.length := by
    rw [length_header, hsize]
    decide
  have htake : (node.store 0 (header f.1 f.2.length)).data.take 4 = header f.1 f.2.length :=
    take_store_zero node.data hfit
  rw [← idHeader_take, htake, idHeader_header h]

/-- The coroutine with the header of `f` in its node and the rest unread. -/
def headerRead (c : Co) (f : Int × List UInt8) (rest : List UInt8) : Co :=
  { c with
    recvHeadNode := c.recvHeadNode.clear.store 0 (header f.1 f.2.length)
    stream := f.2 ++ rest }

theorem coIteration_header (h : FrameOk f) (hc : Open c) (hs : c.stream = sendFrame f ++ rest) :
    coIteration c = readBody (headerRead c f rest) f.2.length f.1 := by
  have hread : asyncRead c.stream 4 = some (header f.1 f.2.length, f.2 ++ rest) := by
    have hr := asyncRead_append (header f.1 f.2.length) (f.2 ++ rest)
    rwa [length_header, ← List.append_assoc, ← sendFrame_eq h, ← hs] at hr
  have hsize : c.recvHeadNode.clear.data.length = 5 := by
    simp [MsgNode.clear, MsgNode.store, hc.size]
  have hhead := idHeader_store h hsize
  simp only [coIteration, hc.notClosed, hread, length_header, hhead]
  rw [if_neg (by decide), if_neg (by decide), readMsg]
  simp [headerRead, hc.notClosed]

theorem coIteration_frame (h : FrameOk f) (hc : Open c) (hs : c.stream = sendFrame f ++ rest) :
    (f.2 ≠ [] → ∃ c', coIteration c = .next c' ∧ c'.stream = rest ∧ Open c' ∧
      c'.events = c.events ++ [.postMsgToQue (coNode f.1 f.2)]) ∧
    (f.2 = [] → ∃ c', coIteration c = .returned c' ∧
      c'.events = c.events ++ [.close, .clearSession]) := by
  obtain ⟨hfull, hempty⟩ :=
    readBody_frame h (show (headerRead c f rest).stream = f.2 ++ rest from rfl)
  rw [coIteration_header h hc hs]
  refine ⟨fun hne => ?_, hempty⟩
  obtain ⟨c', hnext, hstream, hsame, hclose, hev⟩ := hfull hne
  refine ⟨c', hnext, hstream, ⟨hclose.trans hc.notClosed, ?_⟩, hev⟩
  rw [hsame]
  simp [headerRead, MsgNode.clear, MsgNode.store, hc.size]

/-- With no empty body every frame is posted, and the coroutine waits for more. -/
theorem coLoop_full (hf : ∀ f ∈ frames, FrameOk f) (hne : ∀ f ∈ frames, f.2 ≠ []) (hc : Open c)
    (hs : c.stream = sendFrames frames) (hfuel : frames.length < fuel) :
    ∃ c', coLoop fuel c = .waiting c' ∧
      c'.events = c.events ++ frames.map fun f => .postMsgToQue (coNode f.1 f.2) := by
  induction frames generalizing c fuel with
  | nil =>
    obtain ⟨n, rfl⟩ : ∃ n, fuel = n + 1 := ⟨fuel - 1, by omega⟩
    have hs : c.stream = [] := hs
    simp [coLoop, coIteration, hc.notClosed, hs, asyncRead]
  | cons f frames ih =>
    obtain ⟨n, rfl⟩ : ∃ n, fuel = n + 1 := ⟨fuel - 1, by omega⟩
    obtain ⟨c₁, hnext, hstream, hc₁, hev⟩ :=
      (coIteration_frame (hf f (by simp)) hc hs).1 (hne f (by simp))
    obtain ⟨c', hloop, hev'⟩ := ih (fun g hg => hf g (by simp [hg]))
      (fun g hg => hne g (by simp [hg])) hc₁ hstream (Nat.lt_of_succ_lt_succ hfuel)
    refine ⟨c', by rw [coLoop, hnext]; exact hloop, ?_⟩
    rw [hev', hev]
    simp

/-- The first empty body ends the session. -/
theorem coLoop_empty (hf : ∀ f ∈ frames, FrameOk f) (hempty : ∃ f ∈ frames, f.2 = [])
    (hc : Open c) (hs : c.stream = sendFrames frames) (hfuel : frames.length < fuel) :
    ∃ c', coLoop fuel c = .returned c' ∧ .close ∈ c'.events := by
  induction frames generalizing c fuel with
  | nil => simp at hempty
  | cons f frames ih =>
    obtain ⟨n, rfl⟩ : ∃ n, fuel = n + 1 := ⟨fuel - 1, by omega⟩
    obtain ⟨hfull, hnone⟩ := coIteration_frame (hf f (by simp)) hc hs
    by_cases hb : f.2 = []
    · obtain ⟨c', hret, hev⟩ := hnone hb
      exact ⟨c', by rw [coLoop, hret], by simp [hev]⟩
    · obtain ⟨c₁, hnext, hstream, hc₁, -⟩ := hfull hb
      have hrest : ∃ g ∈ frames, g.2 = [] := by
        obtain ⟨g, hg, hg'⟩ := hempty
        rcases List.mem_cons.mp hg with rfl | hg
        · exact absurd hg' hb
        · exact ⟨g, hg, hg'⟩
      obtain ⟨c', hloop, hclose⟩ := ih (fun g hg => hf g (by simp [hg])) hrest hc₁ hstream
        (Nat.lt_of_succ_lt_succ hfuel)
      exact ⟨c', by rw [coLoop, hnext]; exact hloop, hclose⟩

theorem frames_fuel (hf : ∀ f ∈ frames, FrameOk f) :
    frames.length < (sendFrames frames).length + 1 := by
  induction frames with
  | nil => simp
  | cons f frames ih =>
    have hrest := ih fun g hg => hf g (by simp [hg])
    have hlen : (sendFrame f).length = f.2.length + 4 := by
      rw [sendFrame_eq (hf f (by simp)), List.length_append, length_header, Nat.add_comm]
    simp only [sendFrames, List.flatMap_cons, List.length_append, List.length_cons] at hrest ⊢
    omega

theorem open_fresh (stream : List UInt8) : Open (Co.fresh stream) := ⟨rfl, rfl⟩

-- ---------------------------------------------------------------------------
-- Both readers
-- ---------------------------------------------------------------------------

theorem dispatch_frames {len : RecvNode → Int} {node : Int × List UInt8 → RecvNode}
    (hf : ∀ f ∈ frames, FrameOk f) (hid : ∀ f, (node f).msgId = f.1)
    (hdata : ∀ f, (node f).data = f.2 ++ [0]) (hlen : ∀ f, len (node f) = f.2.length) :
    dispatch len (frames.map node) = frames.filter fun f => f.1 == msgHelloWord := by
  have hload (f : Int × List UInt8) (h : FrameOk f) :
      load (node f).data 0 (toSizeT (len (node f))) = f.2 := by
    have hle : (f.2.length : Int) ≤ 2048 := h.2.2
    rw [hdata, hlen, toSizeT_natCast _ (by omega), load_append]
  rw [dispatch, List.filter_map, List.map_map]
  simp only [Function.comp_def, hid]
  refine (List.map_congr_left fun f hmem => ?_).trans (List.map_id _)
  rw [hload f (hf f (List.mem_filter.mp hmem).1)]
  rfl

/-- The callback reader posts every frame and closes nothing. -/
theorem session_frames {chunks : List (List UInt8)} (hf : ∀ f ∈ frames, FrameOk f)
    (hc : ∀ chunk ∈ chunks, ChunkOk chunk) (hcut : chunks.flatten = sendFrames frames) :
    posts (session chunks) = (frames.map fun f => bodyNode f.1 f.2) ∧
      ∀ call ∈ session chunks, ∀ e ∈ call.flow.call.events, closes e = false := by
  have hrun : format.run (.head []) chunks.flatten = (.head [], frames) := by
    rw [hcut]
    exact run_sendFrames _ hf
  have hlive : (format.run (.head []) chunks.flatten).1.Live := by rw [hrun]; trivial
  constructor
  · rw [session, posts_serve (rep_fresh postServer ()) trivial hc fun h => by simp [h] at hlive]
    rw [hrun]
  · intro call hcall e he
    obtain ⟨msgs, ext, hev⟩ :=
      serve_live_events postServer_quiet (rep_fresh postServer ()) trivial hc hlive call hcall
    rw [hev, deliverAll_events] at he
    rcases List.mem_append.mp he with he | he
    · obtain ⟨m, -, rfl⟩ := List.mem_map.mp he
      rfl
    · rw [List.mem_singleton.mp he]
      rfl

end

/-- The same messages reach the callback, and neither side closes the session. -/
structure Agrees (chunks : List (List UInt8)) : Prop where
  same : coDispatched (start chunks.flatten) = dispatched (session chunks)
  coOpen : ∀ e ∈ (start chunks.flatten).co.events, closes e = false
  callbackOpen : ∀ call ∈ session chunks, ∀ e ∈ call.flow.call.events, closes e = false

theorem start_agrees_iff (frames : List (Int × List UInt8)) (chunks : List (List UInt8))
    (hframes : ∀ f ∈ frames, FrameOk f) (hchunks : ∀ chunk ∈ chunks, ChunkOk chunk)
    (hcut : chunks.flatten = sendFrames frames) :
    Agrees chunks ↔ ∀ f ∈ frames, f.2 ≠ [] := by
  obtain ⟨hposts, hopen⟩ := session_frames hframes hchunks hcut
  have hfuel := frames_fuel hframes
  rw [← hcut] at hfuel
  constructor
  · intro h f hf hempty
    obtain ⟨c', hloop, hclose⟩ :=
      coLoop_empty hframes ⟨f, hf, hempty⟩ (open_fresh chunks.flatten) hcut hfuel
    have hco := h.coOpen
    rw [start, hloop] at hco
    exact absurd (hco _ hclose) (by decide)
  · intro hne
    obtain ⟨c', hloop, hev⟩ := coLoop_full hframes hne (open_fresh chunks.flatten) hcut hfuel
    have hev : c'.events = frames.map fun f => .postMsgToQue (coNode f.1 f.2) := hev
    refine ⟨?_, ?_, hopen⟩
    · rw [coDispatched, dispatched, hposts, start, hloop, CoFlow.co, hev,
        posted_map fun f => coNode f.1 f.2,
        dispatch_frames hframes (fun _ => rfl) (fun _ => rfl) (fun _ => rfl),
        dispatch_frames hframes (fun _ => rfl) (fun _ => rfl) (fun _ => rfl)]
    · intro e he
      rw [start, hloop, CoFlow.co, hev] at he
      obtain ⟨f, -, rfl⟩ := List.mem_map.mp he
      rfl

theorem start_agrees_iff_two :
    Agrees [[3, 233, 0], [1, 7, 0, 5, 0, 1, 9]] ↔
      ∀ f ∈ [((1001 : Int), [(7 : UInt8)]), (5, [9])], f.2 ≠ [] :=
  start_agrees_iff _ _ (by decide) (by decide) (by decide +kernel)

/-- A frame with the registered id and no body, in one chunk. -/
theorem start_disagrees : ¬ ∀ frames chunks, (∀ f ∈ frames, FrameOk f) →
    (∀ chunk ∈ chunks, ChunkOk chunk) → chunks.flatten = sendFrames frames → Agrees chunks := by
  intro h
  have hagree := h [(1001, [])] [[3, 233, 0, 0]] (by decide) (by decide) (by decide +kernel)
  have hclosed : (start [3, 233, 0, 0]).co.events.any closes = true := by decide +kernel
  obtain ⟨e, he, hc⟩ := List.any_eq_true.mp hclosed
  rw [hagree.coOpen e he] at hc
  cases hc

end DdsAuto.CoroutineServer
