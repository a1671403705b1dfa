import DdsAuto.Asio.Serve

/-!
# Readers with an id and a length in the header

Four bytes of header: a message id and a body length, each a `short` in network
order and each refused above `MAX_LENGTH`.
-/

namespace DdsAuto.Asio

open CInt Memory Framing

/-- `MAX_LENGTH`. -/
abbrev maxLength : Int := 2048

/-- `MAX_SENDQUE`. -/
abbrev maxSendque : Nat := 1000

/-- `MSG_HELLO_WORD`, the one id with a callback. -/
abbrev msgHelloWord : Int := 1001

/-- The header check: a negative id or length passes it. -/
def idHeader (data : List UInt8) : Option (Int × Int) :=
  let msgId := networkToHostShort (loadShort data)
  if msgId > maxLength then none
  else
    let msgLen := networkToHostShort (loadShort (data.drop 2))
    if msgLen > maxLength then none else some (msgLen, msgId)

theorem loadShort_take {data : List UInt8} (h : 2 ≤ n) :
    loadShort (data.take n) = loadShort data := by
  have hget (i : Nat) (hi : i < 2) : (data.take n).getD i 0 = data.getD i 0 := by
    simp only [List.getD_eq_getElem?_getD, List.getElem?_take_of_lt (show i < n by omega)]
  simp only [loadShort, hget 0 (by omega), hget 1 (by omega)]

theorem idHeader_take (data : List UInt8) : idHeader (data.take 4) = idHeader data := by
  have h2 : loadShort ((data.take 4).drop 2) = loadShort (data.drop 2) := by
    rw [List.drop_take]
    exact loadShort_take (by omega)
  have h0 : loadShort (data.take 4) = loadShort data := loadShort_take (by omega)
  simp only [idHeader, h0, h2]

theorem idHeader_len (h : idHeader data = some (msgLen, msgId)) :
    IsShort msgLen ∧ msgLen ≤ 2048 := by
  simp only [idHeader, networkToHostShort_loadShort] at h
  split at h
  · cases h
  · split at h
    · cases h
    · rename_i hle
      simp only [Option.some.injEq, Prod.mk.injEq] at h
      obtain ⟨rfl, -⟩ := h
      exact ⟨bigEndianShort_isShort _, Int.not_lt.mp hle⟩

/-- The servers with this header; `deliver` is what tells them apart. -/
def idServer (deliver : RecvNode → ε → Delivery ε) : Server ε where
  headTotalLen := 4
  headTotalLen_pos := by decide
  headTotalLen_le := by decide
  parseHead := idHeader
  parseHead_take data _ := idHeader_take data
  parseHead_len := idHeader_len
  deliver := deliver

@[simp] theorem idServer_parseHead (deliver : RecvNode → ε → Delivery ε) :
    (idServer deliver).parseHead = idHeader := by simp only [idServer]

/-- A well-formed frame: id and length between 0 and `MAX_LENGTH`. -/
def FrameOk (f : Int × List UInt8) : Prop :=
  0 ≤ f.1 ∧ f.1 ≤ maxLength ∧ (f.2.length : Int) ≤ maxLength

instance (f : Int × List UInt8) : Decidable (FrameOk f) := by unfold FrameOk; infer_instance

/-- The bytes one `SendNode` puts on the wire. -/
def sendFrame (f : Int × List UInt8) : List UInt8 :=
  (SendNode.new 4 f.2 f.2.length f.1).toOption.elim [] (·.buffer)

def sendFrames (frames : List (Int × List UInt8)) : List UInt8 := frames.flatMap sendFrame

theorem sendFrame_eq (h : FrameOk f) : sendFrame f = header f.1 f.2.length ++ f.2 := by
  have hlen : f.2.length ≤ 32763 := by
    have hle : (f.2.length : Int) ≤ 2048 := h.2.2
    omega
  have hnew := SendNode.new_ok f.2 f.1 hlen
  rw [sendFrame, hnew]
  exact SendNode.buffer_new f.2 f.1 hlen hnew

theorem sendFrames_eq (h : ∀ f ∈ frames, FrameOk f) :
    sendFrames frames = Format.encode (fun id body => header id body.length) frames := by
  unfold sendFrames Format.encode
  induction frames with
  | nil => rw [List.flatMap_nil, List.flatMap_nil]
  | cons f frames ih =>
    rw [List.flatMap_cons, List.flatMap_cons, sendFrame_eq (h f (by simp)),
      ih fun g hg => h g (by simp [hg])]

/-- The header of a well-formed frame is read back. -/
theorem idHeader_header (h : FrameOk f) :
    idHeader (header f.1 f.2.length) = some ((f.2.length : Int), f.1) := by
  have h0 : 0 ≤ f.1 := h.1
  have h1 : f.1 ≤ 2048 := h.2.1
  have h2 : (f.2.length : Int) ≤ 2048 := h.2.2
  have hid : networkToHostShort (loadShort (header f.1 f.2.length)) = f.1 := by
    rw [networkToHostShort_loadShort, header, bigEndianShort_append _ _ (by simp),
      bigEndianShort_shortBytes ⟨by omega, by omega⟩]
  have hlen : networkToHostShort (loadShort ((header f.1 f.2.length).drop 2)) = f.2.length := by
    rw [networkToHostShort_loadShort, header]
    exact bigEndianShort_shortBytes ⟨by omega, by omega⟩
  rw [idHeader, hid, hlen, if_neg (Int.not_lt.mpr h1), if_neg (Int.not_lt.mpr h2)]

theorem encodes_header (deliver : RecvNode → ε → Delivery ε) (h : FrameOk f) :
    (idServer deliver).format.Encodes (fun id body => header id body.length) f := by
  refine ⟨length_header, ?_⟩
  simp only [Server.format]
  exact verdict_body (by rw [idServer_parseHead, idHeader_header h])

theorem run_sendFrames (deliver : RecvNode → ε → Delivery ε) (h : ∀ f ∈ frames, FrameOk f) :
    (idServer deliver).format.run (.head []) (sendFrames frames) = (.head [], frames) := by
  rw [sendFrames_eq h]
  exact Format.run_encode fun f hf => encodes_header deliver (h f hf)

-- ---------------------------------------------------------------------------
-- Posting to the logic thread
-- ---------------------------------------------------------------------------

/-- What the servers with a logic thread do with a message: `PostMsgToQue`. -/
def postServer : Server Unit :=
  idServer fun node _ =>
    { ext := (), events := [.postMsgToQue node], accesses := [], outcome := .returned }

def Event.posted : Event → Option RecvNode
  | .postMsgToQue node => some node
  | _ => none

/-- The nodes the calls posted, in order. -/
def posts (calls : List (Handled ε)) : List RecvNode :=
  calls.flatMap fun call => call.flow.call.events.filterMap Event.posted

@[simp] theorem posts_nil : posts ([] : List (Handled ε)) = [] := rfl

@[simp] theorem posts_cons (call : Handled ε) (calls : List (Handled ε)) :
    posts (call :: calls) = call.flow.call.events.filterMap Event.posted ++ posts calls := rfl

theorem postServer_quiet : postServer.Quiet := by
  intro node ext
  simp only [postServer, idServer]
  exact ⟨rfl, by simp, by simp, by simp⟩

theorem deliverAll_events (msgs : List (Int × List UInt8)) (ext : Unit) :
    (deliverAll postServer msgs ext).events =
      msgs.map fun m => .postMsgToQue (bodyNode m.1 m.2) := by
  induction msgs generalizing ext with
  | nil => rfl
  | cons m msgs ih =>
    have hout := (postServer_quiet (bodyNode m.1 m.2) ext).returned
    have hev : (postServer.deliver (bodyNode m.1 m.2) ext).events =
        [.postMsgToQue (bodyNode m.1 m.2)] := by simp only [postServer, idServer]
    simp only [deliverAll, Delivery.andThen, hout, hev, ih, List.map_cons, List.singleton_append]

theorem posted_map (node : Int × List UInt8 → RecvNode) (msgs : List (Int × List UInt8)) :
    (msgs.map fun m => Event.postMsgToQue (node m)).filterMap Event.posted = msgs.map node := by
  simp [List.filterMap_map, Function.comp_def, Event.posted]

theorem posted_deliverAll (msgs : List (Int × List UInt8)) (ext : Unit) :
    (deliverAll postServer msgs ext).events.filterMap Event.posted =
      msgs.map fun m => bodyNode m.1 m.2 := by
  rw [deliverAll_events, posted_map fun m => bodyNode m.1 m.2]

/-- A session posts what the decoder finds in the chunks. -/
theorem posts_serve {d : Decoder} (h : Rep postServer s d) (hd : d.Live)
    (hc : ∀ chunk ∈ chunks, ChunkOk chunk)
    (hend : (postServer.format.run d chunks.flatten).1 ≠ .stopped .overran) :
    posts (serve postServer s chunks) =
      (postServer.format.run d chunks.flatten).2.map fun m => bodyNode m.1 m.2 := by
  induction chunks generalizing s d with
  | nil => simp [serve]
  | cons chunk chunks ih =>
    have hchunk := hc chunk (by simp)
    rw [List.flatten_cons, Format.run_append] at hend ⊢
    rw [List.map_append, ← posted_deliverAll (postServer.format.run d chunk).2 s.ext]
    cases hrun : (postServer.format.run d chunk).1 with
    | stopped reason =>
      have hreason : reason ≠ .overran := by
        rintro rfl
        rw [hrun, Format.run_stopped] at hend
        exact hend rfl
      have hstop := handleRead_stopped postServer_quiet h hd hchunk hrun
      rw [serve_cons_stopped postServer_quiet h hd hchunk hrun hreason, Format.run_stopped]
      cases reason with
      | cleared | threw =>
        obtain ⟨c', hf, -, hdid⟩ := hstop
        simp [hf, Flow.call, hdid.events_enter, Event.posted]
      | overran => exact absurd rfl hreason
    | head | body =>
      have hlive : (postServer.format.run d chunk).1.Live := by rw [hrun]; trivial
      obtain ⟨c', hf, hrep, hdid⟩ := handleRead_live postServer_quiet h hd hchunk hlive
      rw [serve_cons_armed hf (by simp [hdid.events_enter]), posts_cons,
        ih hrep hlive (fun chunk hmem => hc chunk (by simp [hmem])) hend, hrun]
      simp [Flow.call, hdid.events_enter, Event.posted]

end DdsAuto.Asio
