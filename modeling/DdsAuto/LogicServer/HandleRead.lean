import DdsAuto.Asio.IdHeader

/-!
# `HandleRead` of LogicServer02

`handleRead_round_trip`: however a stream of frames is cut, the session posts
the frames. `handleRead_bounded_iff`: whatever the peer sends, the parser stays
inside its buffers, unless it reaches a header with a length of `-1`.
-/

namespace DdsAuto.LogicServer

open CInt Memory Framing Asio

-- ---------------------------------------------------------------------------
-- Round trip
-- ---------------------------------------------------------------------------

/-- What may follow the complete frames of a stream. -/
inductive Tail
  | nothing
  | cut (f : Int × List UInt8) (n : Nat)
  | bad (hd rest : List UInt8)

def Tail.bytes : Tail → List UInt8
  | .nothing => []
  | .cut f n => (sendFrame f).take n
  | .bad hd rest => hd ++ rest

/-- A cut frame lacks a byte at least; a bad header has an id or a length,
read as a signed `short` in network order, above `MAX_LENGTH`. -/
def Tail.Ok : Tail → Prop
  | .nothing => True
  | .cut f n => FrameOk f ∧ n < (sendFrame f).length
  | .bad hd _ => hd.length = 4 ∧
      (bigEndianShort hd > maxLength ∨ bigEndianShort (hd.drop 2) > maxLength)

def Tail.IsBad : Tail → Prop
  | .bad _ _ => True
  | _ => False

section
variable (frames : List (Int × List UInt8)) (tail : Tail) (chunks : List (List UInt8))

/-- The bad header has arrived with the first `n` chunks. -/
def Refused (n : Nat) : Prop :=
  tail.IsBad ∧ (sendFrames frames).length + 4 ≤ (chunks.take n).flatten.length

/-- The calls a fresh session makes on the chunks. -/
def session : List (Handled Unit) := serve postServer (Session.fresh postServer ()) chunks

structure RoundTrip : Prop where
  posted : posts (session chunks) = frames.map fun f => bodyNode f.1 f.2
  rearmed : ∀ i (h : i < chunks.length), ¬ Refused frames tail chunks (i + 1) →
    ∃ s c, (session chunks)[i]? = some ⟨s, chunks[i], .ret c⟩ ∧
      c.events.count .asyncReadSome = 1 ∧ c.events.count .clearSession = 0
  cleared : ∀ i (h : i < chunks.length), ¬ Refused frames tail chunks i →
    Refused frames tail chunks (i + 1) →
    ∃ s c, (session chunks)[i]? = some ⟨s, chunks[i], .ret c⟩ ∧
      c.events.count .asyncReadSome = 0 ∧ c.events.count .clearSession = 1
  ended : ∀ i, Refused frames tail chunks i → (session chunks)[i]? = none

end

section
variable {frames : List (Int × List UInt8)} {tail : Tail} {chunks : List (List UInt8)}
variable {stream : List UInt8}

abbrev format : Format UInt8 Int Stop := postServer.format

theorem idHeader_bad (h : bigEndianShort hd > maxLength ∨ bigEndianShort (hd.drop 2) > maxLength) :
    idHeader hd = none := by
  simp only [idHeader, networkToHostShort_loadShort]
  split
  · rfl
  · rename_i hid
    rw [if_pos (h.resolve_left hid)]

theorem verdict_bad (h : bigEndianShort hd > maxLength ∨ bigEndianShort (hd.drop 2) > maxLength) :
    format.verdict hd = .stop .cleared := by
  have hnone : postServer.parseHead hd = none := by
    rw [postServer, idServer_parseHead, idHeader_bad h]
  exact verdict_none hnone

theorem run_frames (h : ∀ f ∈ frames, FrameOk f) (as : List UInt8) :
    format.run (.head []) (sendFrames frames ++ as) =
      ((format.run (.head []) as).1, frames ++ (format.run (.head []) as).2) := by
  have hrun : format.run (.head []) (sendFrames frames) = (.head [], frames) :=
    run_sendFrames _ h
  rw [Format.run_append, hrun]

theorem run_tail (h : ∀ f ∈ frames, FrameOk f) (ht : tail.Ok) :
    (format.run (.head []) (sendFrames frames ++ tail.bytes)).2 = frames ∧
      (tail.IsBad → (format.run (.head []) (sendFrames frames ++ tail.bytes)).1 =
        .stopped .cleared) ∧
      (¬ tail.IsBad → (format.run (.head []) (sendFrames frames ++ tail.bytes)).1.Live) := by
  rw [run_frames h]
  cases tail with
  | nothing => simp [Tail.bytes, Tail.IsBad]
  | cut f n =>
    obtain ⟨hf, hn⟩ := ht
    have hrest : (sendFrame f).drop n ≠ [] := by
      rw [← List.length_pos_iff, List.length_drop]
      omega
    have hcut := List.take_append_drop n (sendFrame f)
    rw [sendFrame_eq hf] at hcut hrest
    obtain ⟨d, hrun, hlive⟩ := Format.run_cut (encodes_header _ hf) hcut hrest
    have hrun : format.run (.head []) (Tail.cut f n).bytes = (d, []) := by
      rw [Tail.bytes, sendFrame_eq hf]
      exact hrun
    simp [hrun, hlive, Tail.IsBad]
  | bad hd rest =>
    obtain ⟨hlen, hbad⟩ := ht
    have hrun : format.run (.head []) (Tail.bad hd rest).bytes = (.stopped .cleared, []) :=
      Format.run_frame_stop hlen (verdict_bad hbad) rest
    simp [hrun, Tail.IsBad]

/-- Decoding stops where the fourth byte of the bad header is. -/
theorem run_bad_prefix (h : ∀ f ∈ frames, FrameOk f) (ht : (Tail.bad hd rest).Ok)
    (hp : p ++ q = sendFrames frames ++ (hd ++ rest)) :
    ((sendFrames frames).length + 4 ≤ p.length →
      (format.run (.head []) p).1 = .stopped .cleared) ∧
    (p.length < (sendFrames frames).length + 4 → (format.run (.head []) p).1.Live) := by
  obtain ⟨hlen, hbad⟩ := ht
  rw [← List.append_assoc] at hp
  rcases List.append_eq_append_iff.mp hp with ⟨more, hF, -⟩ | ⟨more, rfl, -⟩
  · have htotal := congrArg List.length hF
    simp only [List.length_append, hlen] at htotal
    constructor
    · intro hge
      obtain rfl : more = [] := List.eq_nil_of_length_eq_zero (by omega)
      rw [List.append_nil] at hF
      rw [← hF, run_frames h, ← List.append_nil hd,
        Format.run_frame_stop hlen (verdict_bad hbad)]
    · intro hlt
      -- a byte of the header is missing, and what precedes it is live
      have hmore : more ≠ [] := by
        rintro rfl
        simp at htotal
        omega
      have hhd : hd ≠ [] := by
        rintro rfl
        simp at hlen
      have hlast := congrArg List.dropLast hF
      rw [List.dropLast_append_of_ne_nil hhd, List.dropLast_append_of_ne_nil hmore] at hlast
      have hlive : (format.run (.head []) (sendFrames frames ++ hd.dropLast)).1.Live := by
        rw [run_frames h, Format.run_head_short]
        · trivial
        · show 0 + hd.dropLast.length < 4
          rw [List.length_dropLast, hlen]
          decide
      rw [hlast] at hlive
      exact Format.live_of_run_append hlive
  · constructor
    · intro _
      rw [List.append_assoc, run_frames h, Format.run_frame_stop hlen (verdict_bad hbad)]
    · intro hlt
      simp only [List.length_append, hlen] at hlt
      omega

theorem run_chunks (h : ∀ f ∈ frames, FrameOk f) (ht : tail.Ok)
    (hcut : chunks.flatten = sendFrames frames ++ tail.bytes) (n : Nat) :
    (Refused frames tail chunks n →
      (format.run (.head []) (chunks.take n).flatten).1 = .stopped .cleared) ∧
    (¬ Refused frames tail chunks n →
      (format.run (.head []) (chunks.take n).flatten).1.Live) := by
  have hp : (chunks.take n).flatten ++ (chunks.drop n).flatten =
      sendFrames frames ++ tail.bytes := by
    rw [← List.flatten_append, List.take_append_drop, hcut]
  by_cases hb : tail.IsBad
  · cases tail with
    | nothing | cut => exact hb.elim
    | bad hd rest =>
      obtain ⟨hstop, hlive⟩ := run_bad_prefix h ht hp
      exact ⟨fun hr => hstop hr.2, fun hr => hlive (by
        have := not_and.mp hr hb
        omega)⟩
  · refine ⟨fun hr => absurd hr.1 hb, fun _ => ?_⟩
    have hlive := (run_tail h ht).2.2 hb
    rw [← hp] at hlive
    exact Format.live_of_run_append hlive

theorem run_chunks_succ {d : Decoder} (hi : i < chunks.length) :
    format.run (format.run d (chunks.take i).flatten).1 chunks[i] =
      ((format.run d (chunks.take (i + 1)).flatten).1,
        (format.run (format.run d (chunks.take i).flatten).1 chunks[i]).2) := by
  rw [List.take_succ_eq_append_getElem hi, List.flatten_append, Format.run_append]
  simp

theorem session_get (hc : ∀ chunk ∈ chunks, ChunkOk chunk) (hi : i < chunks.length)
    (hlive : (format.run (.head []) (chunks.take i).flatten).1.Live) :
    ∃ s, (session chunks)[i]? = some ⟨s, chunks[i], handleRead postServer s chunks[i]⟩ ∧
      Rep postServer s (format.run (.head []) (chunks.take i).flatten).1 :=
  serve_get_live postServer_quiet (rep_fresh postServer ()) trivial hc hi hlive

/-- Posting arms no read and clears no session: a call does both as often as
its last event says. -/
theorem counts_of_did {evs : List Event}
    (h : Did (enter s chunk) c (deliverAll postServer msgs ext) evs) :
    c.events.count .asyncReadSome = evs.count .asyncReadSome ∧
      c.events.count .clearSession = evs.count .clearSession := by
  have hq := deliverAll_quiet postServer_quiet msgs ext
  rw [h.events_enter, List.count_append, List.count_append, List.count_eq_zero.mpr hq.noRead,
    List.count_eq_zero.mpr hq.noClear, Nat.zero_add, Nat.zero_add]
  exact ⟨rfl, rfl⟩

end

theorem handleRead_round_trip (frames : List (Int × List UInt8)) (tail : Tail)
    (chunks : List (List UInt8)) (hframes : ∀ f ∈ frames, FrameOk f) (htail : tail.Ok)
    (hchunks : ∀ chunk ∈ chunks, ChunkOk chunk)
    (hcut : chunks.flatten = sendFrames frames ++ tail.bytes) : RoundTrip frames tail chunks where
  posted := by
    obtain ⟨hmsgs, hbad, hlive⟩ := run_tail hframes htail
    have hend : (format.run (.head []) chunks.flatten).1 ≠ .stopped .overran := by
      rw [hcut]
      intro hover
      by_cases hb : tail.IsBad
      · rw [hbad hb] at hover
        cases hover
      · have hlive := hlive hb
        rw [hover] at hlive
        exact hlive
    rw [session, posts_serve (rep_fresh postServer ()) trivial hchunks hend]
    rw [← hcut] at hmsgs
    rw [← hmsgs]
  rearmed i hi hr := by
    have hnext := (run_chunks hframes htail hcut (i + 1)).2 hr
    have hlive : (format.run (.head []) (chunks.take i).flatten).1.Live := by
      rw [List.take_succ_eq_append_getElem hi, List.flatten_append] at hnext
      exact Format.live_of_run_append hnext
    obtain ⟨s, hget, hrep⟩ := session_get hchunks hi hlive
    have hrun :
        (format.run (format.run (.head []) (chunks.take i).flatten).1 chunks[i]).1.Live := by
      rw [run_chunks_succ hi]
      exact hnext
    obtain ⟨c', hf, -, hdid⟩ :=
      handleRead_live postServer_quiet hrep hlive (hchunks _ (List.getElem_mem hi)) hrun
    obtain ⟨hread, hclear⟩ := counts_of_did hdid
    exact ⟨s, c', by rw [hget, hf], hread, hclear⟩
  cleared i hi hr hr' := by
    have hlive := (run_chunks hframes htail hcut i).2 hr
    have hstop := (run_chunks hframes htail hcut (i + 1)).1 hr'
    obtain ⟨s, hget, hrep⟩ := session_get hchunks hi hlive
    have hrun : (format.run (format.run (.head []) (chunks.take i).flatten).1 chunks[i]).1 =
        .stopped .cleared := by
      rw [run_chunks_succ hi]
      exact hstop
    obtain ⟨c', hf, -, hdid⟩ :=
      handleRead_stopped postServer_quiet hrep hlive (hchunks _ (List.getElem_mem hi)) hrun
    obtain ⟨hread, hclear⟩ := counts_of_did hdid
    exact ⟨s, c', by rw [hget, hf], hread, hclear⟩
  ended i hr :=
    serve_get_stopped postServer_quiet (rep_fresh postServer ()) trivial hchunks (by decide)
      ((run_chunks hframes htail hcut i).1 hr)

theorem handleRead_round_trip_bad :
    RoundTrip [(1, [7]), (1001, [])] (.bad [0, 0, 8, 1] [5])
      [[0, 1, 0], [1, 7, 3, 233, 0], [0, 0, 0, 8, 1, 5]] :=
  handleRead_round_trip _ _ _ (by decide) ⟨by decide, by decide +kernel⟩ (by decide)
    (by decide +kernel)

-- ---------------------------------------------------------------------------
-- Bounds under a hostile peer
-- ---------------------------------------------------------------------------

structure SessionBounded (s : Session ε) : Prop where
  head : 0 ≤ s.recvHeadNode.curLen ∧ s.recvHeadNode.curLen ≤ 4
  body : s.bHeadParse = true → ∃ node, s.recvMsgNode = some node ∧
    0 ≤ node.curLen ∧ node.curLen ≤ node.totalLen ∧ node.totalLen ≤ maxLength

/-- A call that ends and stays in bounds. The log has every load from `_data`,
against the bytes just read, every store into a node and every `'\0'`. -/
structure Bounded (srv : Server ε) (call : Handled ε) : Prop where
  loopHead : ∀ c, LoopHead srv call.before call.chunk c →
    0 ≤ c.copyLen ∧ c.copyLen + c.bytesTransferred = call.chunk.length ∧ SessionBounded c.session
  chunk : call.chunk.length ≤ 2048
  ended : call.flow.ended = some call.flow.call
  before : SessionBounded call.before
  after : SessionBounded call.flow.call.session
  accesses : Safe call.flow.call.accesses

/-- After complete messages comes a header that passes the checks with a
length of `-1`. -/
inductive ReachesMinusOne : List UInt8 → Prop
  | here : hd.length = 4 → bigEndianShort hd ≤ maxLength → bigEndianShort (hd.drop 2) = -1 →
      ReachesMinusOne (hd ++ rest)
  | later : hd.length = 4 → bigEndianShort hd ≤ maxLength →
      bigEndianShort (hd.drop 2) = body.length → body.length ≤ 2048 → ReachesMinusOne rest →
      ReachesMinusOne (hd ++ body ++ rest)

section
variable {chunk : List UInt8} {chunks : List (List UInt8)} {d : Decoder} {s : Session Unit}

theorem idHeader_eq (data : List UInt8) : idHeader data =
    if bigEndianShort data ≤ maxLength ∧ bigEndianShort (data.drop 2) ≤ maxLength then
      some (bigEndianShort (data.drop 2), bigEndianShort data)
    else none := by
  simp only [idHeader, networkToHostShort_loadShort]
  by_cases hid : bigEndianShort data ≤ maxLength
  · by_cases hlen : bigEndianShort (data.drop 2) ≤ maxLength
    · rw [if_neg (Int.not_lt.mpr hid), if_neg (Int.not_lt.mpr hlen), if_pos ⟨hid, hlen⟩]
    · rw [if_neg (Int.not_lt.mpr hid), if_pos (Int.not_le.mp hlen), if_neg fun h => hlen h.2]
  · rw [if_pos (Int.not_le.mp hid), if_neg fun h => hid h.1]

theorem parseHead_eq : postServer.parseHead = idHeader := by rw [postServer, idServer_parseHead]

theorem parseHead_some : postServer.parseHead hd = some (msgLen, msgId) ↔
    bigEndianShort hd ≤ maxLength ∧ bigEndianShort (hd.drop 2) ≤ maxLength ∧
      bigEndianShort (hd.drop 2) = msgLen ∧ bigEndianShort hd = msgId := by
  rw [parseHead_eq, idHeader_eq]
  split
  · rename_i h
    simp [h.1, h.2]
  · rename_i h
    simp only [reduceCtorEq, false_iff]
    exact fun h' => h ⟨h'.1, h'.2.1⟩

/-- The decoder's reason to stop, in terms of the bytes. -/
theorem stops_overran_iff : format.Stops .overran as ↔ ReachesMinusOne as := by
  constructor
  · intro h
    induction h with
    | here hlen hv =>
      obtain ⟨msgId, h⟩ := verdict_overran_iff.mp hv
      obtain ⟨hid, -, hone, -⟩ := parseHead_some.mp h
      exact .here hlen hid hone
    | later hlen hv _ ih =>
      obtain ⟨hid, hle, hbody, -⟩ := parseHead_some.mp (verdict_body_iff.mp hv)
      refine .later hlen hid hbody ?_ ih
      rw [hbody] at hle
      exact Int.ofNat_le.mp hle
  · intro h
    induction h with
    | here hlen hid hone =>
      refine .here hlen (verdict_overran_iff.mpr ⟨_, parseHead_some.mpr ⟨hid, ?_, hone, rfl⟩⟩)
      rw [hone]
      decide
    | later hlen hid hbody hle _ ih =>
      refine .later hlen (verdict_body_iff.mpr (parseHead_some.mpr ⟨hid, ?_, hbody, rfl⟩)) ih
      rw [hbody]
      exact Int.ofNat_le.mpr hle

theorem sessionBounded_of_headRep (h : HeadRep postServer.headTotalLen s.recvHeadNode got)
    (hbody : s.bHeadParse = true → ∃ node, s.recvMsgNode = some node ∧
      0 ≤ node.curLen ∧ node.curLen ≤ node.totalLen ∧ node.totalLen ≤ maxLength) :
    SessionBounded s := by
  have hlt : got.length < 4 := h.lt
  refine ⟨?_, hbody⟩
  rw [h.cur]
  omega

theorem sessionBounded_of_rep (h : Rep postServer s d) (hd : d.Live) : SessionBounded s := by
  cases d with
  | head got => exact sessionBounded_of_headRep h.2 fun hp => by simp [h.1] at hp
  | body id len got =>
    obtain ⟨-, -, ⟨stale, hhead⟩, node, hs, hnode⟩ := h
    have hfits := hnode.fits
    have hle := hnode.le
    refine sessionBounded_of_headRep hhead fun _ => ⟨node, hs, ?_⟩
    rw [hnode.cur, hnode.total]
    exact ⟨by omega, by omega, Int.ofNat_le.mpr hle⟩
  | stopped => exact hd.elim

theorem sessionBounded_of_idle (h : Idle postServer s) : SessionBounded s := by
  obtain ⟨hp, stale, hhead⟩ := h
  exact sessionBounded_of_headRep hhead fun hp' => by simp [hp] at hp'

theorem loopHead_bounded (h : Rep postServer s d) (hd : d.Live) (hc : ChunkOk chunk)
    (hhead : LoopHead postServer s chunk c) :
    0 ≤ c.copyLen ∧ c.copyLen + c.bytesTransferred = chunk.length ∧ SessionBounded c.session := by
  obtain ⟨hdata, d', rest, hd', hrep, w⟩ := loopHead_sound h hd hc.2 hhead
  refine ⟨w.nonneg, ?_, sessionBounded_of_rep hrep hd'⟩
  rw [w.count, w.total, hdata]

theorem call_bounded (h : Rep postServer s d) (hd : d.Live) (hc : ChunkOk chunk)
    (hend : (format.run d chunk).1 ≠ .stopped .overran) :
    Bounded postServer ⟨s, chunk, handleRead postServer s chunk⟩ := by
  have hsafe := (deliverAll_quiet postServer_quiet (format.run d chunk).2 s.ext).safe
  have hbefore := sessionBounded_of_rep h hd
  have hloop (c : Call Unit) (hhead : LoopHead postServer s chunk c) :=
    loopHead_bounded h hd hc hhead
  cases hrun : (format.run d chunk).1 with
  | stopped reason =>
    have hstop := handleRead_stopped postServer_quiet h hd hc hrun
    cases reason with
    | cleared | threw =>
      obtain ⟨c', hf, hidle, hdid⟩ := hstop
      rw [hf]
      exact ⟨hloop, hc.2, rfl, hbefore, sessionBounded_of_idle hidle, hdid.safe_enter.mpr hsafe⟩
    | overran => exact absurd hrun hend
  | head | body =>
    have hlive : (format.run d chunk).1.Live := by rw [hrun]; trivial
    obtain ⟨c', hf, hrep, hdid⟩ := handleRead_live postServer_quiet h hd hc hlive
    rw [hf]
    exact ⟨hloop, hc.2, rfl, hbefore, sessionBounded_of_rep hrep hlive, hdid.safe_enter.mpr hsafe⟩

theorem serve_bounded (h : Rep postServer s d) (hd : d.Live)
    (hc : ∀ chunk ∈ chunks, ChunkOk chunk)
    (hend : (format.run d chunks.flatten).1 ≠ .stopped .overran) :
    ∀ call ∈ serve postServer s chunks, Bounded postServer call := by
  induction chunks generalizing s d with
  | nil => simp [serve]
  | cons chunk chunks ih =>
    have hchunk := hc chunk (by simp)
    rw [List.flatten_cons] at hend
    have hfirst : (format.run d chunk).1 ≠ .stopped .overran := by
      intro hover
      rw [Format.stopped_of_run hover] at hend
      exact hend rfl
    have hcall := call_bounded h hd hchunk hfirst
    cases hrun : (format.run d chunk).1 with
    | stopped reason =>
      have hreason : reason ≠ .overran := fun hr => hfirst (by rw [hrun, hr])
      rw [serve_cons_stopped postServer_quiet h hd hchunk hrun hreason]
      simpa using hcall
    | head | body =>
      have hlive : (format.run d chunk).1.Live := by rw [hrun]; trivial
      obtain ⟨c', hf, hrep, hdid⟩ := handleRead_live postServer_quiet h hd hchunk hlive
      rw [Format.run_append] at hend
      have htail := ih hrep hlive (fun chunk hmem => hc chunk (by simp [hmem])) hend
      rw [hf] at hcall
      rw [serve_cons_armed hf (by simp [hdid.events_enter])]
      exact List.forall_mem_cons.mpr ⟨hcall, htail⟩

/-- The chunk that completes the header with the length `-1` is mishandled. -/
theorem serve_overran (h : Rep postServer s d) (hd : d.Live)
    (hc : ∀ chunk ∈ chunks, ChunkOk chunk)
    (hend : (format.run d chunks.flatten).1 = .stopped .overran) :
    ∃ call ∈ serve postServer s chunks, ¬ Safe call.flow.call.accesses := by
  induction chunks generalizing s d with
  | nil =>
    rw [List.flatten_nil, Format.run_nil] at hend
    subst hend
    exact hd.elim
  | cons chunk chunks ih =>
    have hchunk := hc chunk (by simp)
    rw [List.flatten_cons] at hend
    cases hrun : (format.run d chunk).1 with
    | stopped reason =>
      rw [Format.stopped_of_run hrun] at hend
      cases hend
      obtain ⟨c', hf, hbad⟩ := handleRead_stopped postServer_quiet h hd hchunk hrun
      exact ⟨_, List.mem_cons_self, by rw [hf]; exact hbad⟩
    | head | body =>
      have hlive : (format.run d chunk).1.Live := by rw [hrun]; trivial
      obtain ⟨c', hf, hrep, hdid⟩ := handleRead_live postServer_quiet h hd hchunk hlive
      rw [Format.run_append] at hend
      obtain ⟨call, hmem, hbad⟩ :=
        ih hrep hlive (fun chunk hmem => hc chunk (by simp [hmem])) hend
      rw [serve_cons_armed hf (by simp [hdid.events_enter])]
      exact ⟨call, List.mem_cons_of_mem _ hmem, hbad⟩

end

theorem handleRead_bounded_iff (chunks : List (List UInt8))
    (hchunks : ∀ chunk ∈ chunks, ChunkOk chunk) :
    (∀ call ∈ session chunks, Bounded postServer call) ↔ ¬ ReachesMinusOne chunks.flatten := by
  have hfresh := rep_fresh postServer ()
  rw [← stops_overran_iff, ← Format.stopped_iff]
  constructor
  · intro hb hover
    obtain ⟨call, hmem, hbad⟩ := serve_overran hfresh trivial hchunks hover
    exact hbad (hb call hmem).accesses
  · exact serve_bounded hfresh trivial hchunks

theorem handleRead_bounded_iff_frame :
    (∀ call ∈ session [[0, 1, 0, 1], [7]], Bounded postServer call) ↔
      ¬ ReachesMinusOne [[0, 1, 0, 1], [7]].flatten :=
  handleRead_bounded_iff _ (by decide)

/-- One chunk with the header `(0, -1)` leaves the node's block. -/
theorem handleRead_minus_one :
    ¬ ∀ chunks : List (List UInt8), (∀ chunk ∈ chunks, ChunkOk chunk) →
      ∀ call ∈ session chunks, Bounded postServer call := by
  intro h
  have hmem : (⟨Session.fresh postServer (), [0, 0, 255, 255],
      handleRead postServer (Session.fresh postServer ()) [0, 0, 255, 255]⟩ : Handled Unit) ∈
      session [[0, 0, 255, 255]] := List.mem_cons_self
  have hsafe := (h [[0, 0, 255, 255]] (by decide) _ hmem).accesses
  have hbad : ¬ Safe (handleRead postServer (Session.fresh postServer ())
      [0, 0, 255, 255]).call.accesses := by decide +kernel
  exact hbad hsafe

end DdsAuto.LogicServer
