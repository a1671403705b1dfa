import DdsAuto.Asio.HelloWorld
import DdsAuto.Asio.Serve
import DdsAuto.Lib.Lts
import Mathlib.Data.Finset.Basic

/-!
# Sessions of MsgJsonIDServer

This server answers a message inside `HandleRead`, whose `catch` logs an
exception and returns: no read is armed then and `_sessions` keeps the session.
`handleRead_settles_iff`: a call leaves its session in the map with one
outstanding read, or out of the map, exactly when nothing throws.

A `SendNode` adds `HEAD_DATA_LEN` to the body's length for a header of
`HEAD_TOTAL_LEN`, so its last byte goes past the block (`sendNode_overflows`);
the model goes on as if that byte changed nothing else.
-/

namespace DdsAuto.MsgJsonIDServer

open CInt Memory Json Asio Lts Framing

/-- `HEAD_DATA_LEN`. -/
abbrev headDataLen : Int := 2

/-- From the parsing of a complete body to the return of `Send`; the source has
it in both branches. `que` is the session's `_send_que`. -/
def processBody (J : JsonCpp) (node : RecvNode) (que : List SendNode) : Delivery (List SendNode) :=
  match helloWorldCallBack J headDataLen que (load node.data 0 (toSizeT node.totalLen)) with
  | .returned que => { ext := que, events := [], accesses := [], outcome := .returned }
  | .threw => { ext := que, events := [], accesses := [], outcome := .threw }
  | .crashed => { ext := que, events := [], accesses := [], outcome := .crashed }

def jsonServer (J : JsonCpp) : Server (List SendNode) := idServer (processBody J)

/-- A session object; `reads` counts its outstanding `async_read_some`s and
`received` is the stream its handlers were given. -/
structure Conn where
  session : Session (List SendNode)
  reads : Nat
  received : List UInt8

/-- `sessions` are the keys of `_sessions`. -/
structure State where
  conns : Nat → Option Conn
  sessions : Finset Nat

inductive Label
  | accept (x : Nat)
  | read (x : Nat) (chunk : List UInt8)
  | readError (x : Nat)
  | written (x : Nat)
  | writeError (x : Nat)

/-- `CServer::ClearSession`. -/
def State.clearSession (s : State) (x : Nat) : State := { s with sessions := s.sessions.erase x }

/-- The server after a read handler of session `x` has returned. -/
def State.handled (s : State) (x : Nat) (conn : Conn) (chunk : List UInt8)
    (c : Call (List SendNode)) : State where
  conns :=
    let conn := { session := c.session
                  reads := conn.reads - 1 + c.events.count .asyncReadSome
                  received := conn.received ++ chunk }
    Function.update s.conns x (some conn)
  sessions := if .clearSession ∈ c.events then s.sessions.erase x else s.sessions

/-- `HandleAccept`, a completed read and a completed write. A handler that does
not end takes the process with it. -/
def step (J : JsonCpp) (s : State) : Label → Option State
  | .accept x =>
    match s.conns x with
    | some _ => none
    | none =>
      let conn := { session := Session.fresh (jsonServer J) [], reads := 1, received := [] }
      some
        { conns := Function.update s.conns x (some conn)
          sessions := insert x s.sessions }
  | .read x chunk =>
    match s.conns x with
    | none => none
    | some conn =>
      if 0 < conn.reads ∧ ChunkOk chunk then
        (handleRead (jsonServer J) conn.session chunk).ended.map (s.handled x conn chunk)
      else none
  | .readError x =>
    match s.conns x with
    | none => none
    | some conn =>
      if 0 < conn.reads then some (s.handled x conn [] (handleReadError conn.session)) else none
  | .written x =>
    match s.conns x with
    | none => none
    | some conn =>
      if conn.session.ext = [] then none
      else
        let session := { conn.session with ext := conn.session.ext.tail }
        some { s with conns := Function.update s.conns x (some { conn with session }) }
  | .writeError x => some (s.clearSession x)

def system (J : JsonCpp) : Lts State Label where
  init := { conns := fun _ => none, sessions := ∅ }
  step := step J

/-- In the map with one outstanding read, or not in the map. -/
def Settled (s : State) (x : Nat) : Prop :=
  ∀ conn, s.conns x = some conn → x ∉ s.sessions ∨ conn.reads = 1

/-- Where the bytes received so far leave the decoder. -/
def Conn.decoder (J : JsonCpp) (conn : Conn) : Decoder :=
  ((jsonServer J).format.run (.head []) conn.received).1

/-- Every message is JSON with the members the handler reads, and its answer
finds the queue full or can be framed; `n` frames are queued before the first. -/
def Answerable (J : JsonCpp) : Nat → List (Int × List UInt8) → Prop
  | _, [] => True
  | n, m :: msgs =>
    (∃ returnStr msgId root ms text, Answers J m.2 returnStr msgId root ms text ∧
      (maxSendque < n ∨ Fits headDataLen returnStr)) ∧
    Answerable J (if maxSendque < n then n else n + 1) msgs

/-- Nothing in the chunk makes the handler throw: no length below `-1`, and
every message it completes is answerable. (A length of `-1` is excluded because
the parser leaves its block on it.) -/
def ReadOk (J : JsonCpp) (conn : Conn) (chunk : List UInt8) : Prop :=
  ((jsonServer J).format.run (conn.decoder J) chunk).1 ≠ .stopped .threw ∧
  ((jsonServer J).format.run (conn.decoder J) chunk).1 ≠ .stopped .overran ∧
  Answerable J conn.session.ext.length ((jsonServer J).format.run (conn.decoder J) chunk).2

/-- Every read of a session in the map is given such a chunk. -/
def ReadsOk (J : JsonCpp) (s : State) (a : Label) : Prop :=
  ∀ x chunk conn, a = .read x chunk → x ∈ s.sessions → s.conns x = some conn → ReadOk J conn chunk

/-- A session in the map has one outstanding read and a parser in step with
what it has received. -/
structure ConnInv (J : JsonCpp) (conn : Conn) : Prop where
  reads : conn.reads = 1
  rep : Rep (jsonServer J) conn.session (conn.decoder J)
  live : (conn.decoder J).Live

def SysInv (J : JsonCpp) (s : State) : Prop :=
  ∀ x conn, s.conns x = some conn → x ∈ s.sessions → ConnInv J conn

-- ---------------------------------------------------------------------------
-- Answering
-- ---------------------------------------------------------------------------

section
variable {J : JsonCpp} {que que' : List SendNode} {msgs : List (Int × List UInt8)}

theorem sendString_length (h : sendString room que msg msgid = .returned que') :
    que'.length = if maxSendque < que.length then que.length else que.length + 1 := by
  unfold sendString at h
  split at h
  · rename_i hfull
    cases h
    rw [if_pos hfull]
  · rename_i hroom
    rw [if_neg hroom]
    split at h
    · cases h
      simp
    · cases h
    · cases h

theorem helloWorld_length (h : helloWorldCallBack J room que data = .returned que') :
    que'.length = if maxSendque < que.length then que.length else que.length + 1 := by
  unfold helloWorldCallBack at h
  split at h
  · cases h
  · exact sendString_length h

theorem load_bodyNode (id : Int) (h : body.length ≤ 2048) :
    load (bodyNode id body).data 0 (toSizeT (bodyNode id body).totalLen) = body := by
  have hsize : toSizeT (body.length : Int) = body.length := toSizeT_natCast _ (by omega)
  rw [bodyNode, hsize, load_append]

theorem processBody_events (J : JsonCpp) (node : RecvNode) (que : List SendNode) :
    (processBody J node que).events = [] := by
  unfold processBody
  split <;> rfl

theorem deliverAll_events (J : JsonCpp) (msgs : List (Int × List UInt8)) :
    ∀ que, (deliverAll (jsonServer J) msgs que).events = [] := by
  induction msgs with
  | nil => exact fun _ => rfl
  | cons m msgs ih =>
    intro que
    have hone := processBody_events J (bodyNode m.1 m.2) que
    simp only [deliverAll, Delivery.andThen, jsonServer, idServer] at ih ⊢
    split
    · simp [hone, ih]
    · exact hone

theorem processBody_returned_iff (id : Int) (h : body.length ≤ 2048) :
    (processBody J (bodyNode id body) que).outcome = .returned ↔
      ∃ returnStr msgId root ms text, Answers J body returnStr msgId root ms text ∧
        (maxSendque < que.length ∨ Fits headDataLen returnStr) := by
  rw [← helloWorld_returned_iff (by decide) que]
  unfold processBody
  rw [load_bodyNode id h]
  cases helloWorldCallBack J headDataLen que body <;> simp

theorem processBody_length (h : (processBody J node que).outcome = .returned) :
    (processBody J node que).ext.length =
      if maxSendque < que.length then que.length else que.length + 1 := by
  unfold processBody at h ⊢
  split at h
  · rename_i hsent
    exact helloWorld_length hsent
  · cases h
  · cases h

/-- The handler comes through its messages exactly when they are answerable. -/
theorem deliverAll_returned_iff (h : ∀ m ∈ msgs, m.2.length ≤ 2048) :
    (deliverAll (jsonServer J) msgs que).outcome = .returned ↔ Answerable J que.length msgs := by
  induction msgs generalizing que with
  | nil => simp [deliverAll, Answerable]
  | cons m msgs ih =>
    have hrest (que : List SendNode) :
        (deliverAll (jsonServer J) msgs que).outcome = .returned ↔ Answerable J que.length msgs :=
      ih fun m hm => h m (by simp [hm])
    rw [Answerable, ← processBody_returned_iff m.1 (h m (by simp))]
    simp only [deliverAll, Delivery.andThen, jsonServer, idServer] at hrest ⊢
    cases ho : (processBody J (bodyNode m.1 m.2) que).outcome with
    | returned => simp [← processBody_length ho, hrest]
    | threw => simp [ho]
    | crashed => simp [ho]

/-- The block of a `SendNode` is one byte short, whatever the body. -/
theorem sendNode_overflows (msg : List UInt8) (h : 0 ≤ maxLen ∧ maxLen + headDataLen ≤ 32767) :
    ¬ Safe (SendNode.accesses headDataLen msg maxLen) := by
  have htotal : toShort (maxLen + 2) = maxLen + 2 := toShort_of_isShort ⟨by omega, h.2⟩
  simp only [SendNode.accesses, htotal, safe_append, safe_cons, Access.InBounds]
  omega

end

-- ---------------------------------------------------------------------------
-- One call
-- ---------------------------------------------------------------------------

section
variable {J : JsonCpp} {conn : Conn} {chunk : List UInt8} {s s' : State} {x : Nat}

theorem messages_le (J : JsonCpp) (conn : Conn) (chunk : List UInt8) :
    ∀ m ∈ ((jsonServer J).format.run (conn.decoder J) chunk).2, m.2.length ≤ 2048 := by
  intro m hm
  have hall := Format.run_within (F := (jsonServer J).format) (s := .head [])
    (fun _ _ _ hv => verdict_body_le hv) trivial (conn.received ++ chunk)
  rw [Format.run_append] at hall
  exact hall m (List.mem_append_right _ hm)

/-- How a handler ends: with its session cleared, with a read armed and the
parser in step, or having done neither. -/
inductive ReadOut (J : JsonCpp) (conn : Conn) (chunk : List UInt8) : Prop
  | cleared (c' : Call (List SendNode)) : ReadOk J conn chunk →
      (handleRead (jsonServer J) conn.session chunk).ended = some c' →
      c'.events = [.clearSession] → ReadOut J conn chunk
  | armed (c' : Call (List SendNode)) : ReadOk J conn chunk →
      (handleRead (jsonServer J) conn.session chunk).ended = some c' →
      c'.events = [.asyncReadSome] →
      Rep (jsonServer J) c'.session ((jsonServer J).format.run (conn.decoder J) chunk).1 →
      ((jsonServer J).format.run (conn.decoder J) chunk).1.Live → ReadOut J conn chunk
  | failed : ¬ ReadOk J conn chunk →
      (∀ c', (handleRead (jsonServer J) conn.session chunk).ended = some c' → c'.events = []) →
      ReadOut J conn chunk

theorem handleRead_out (h : ConnInv J conn) (hc : ChunkOk chunk)
    (hover : ((jsonServer J).format.run (conn.decoder J) chunk).1 ≠ .stopped .overran) :
    ReadOut J conn chunk := by
  have hanswer : (deliverAll (jsonServer J) ((jsonServer J).format.run (conn.decoder J) chunk).2
      conn.session.ext).outcome = .returned ↔ _ :=
    deliverAll_returned_iff (messages_le J conn chunk)
  have hevents := deliverAll_events J ((jsonServer J).format.run (conn.decoder J) chunk).2
    conn.session.ext
  have hdid {c' : Call (List SendNode)} {evs : List Event} (hd : Did (enter conn.session chunk) c'
      (deliverAll (jsonServer J) ((jsonServer J).format.run (conn.decoder J) chunk).2
        conn.session.ext) evs) : c'.events = evs := by
    rw [hd.events_enter, hevents, List.nil_append]
  have hout := handleRead_sound h.rep h.live hc.1 hc.2
  cases hf : handleRead (jsonServer J) conn.session chunk with
  | next => rw [hf] at hout; cases hout
  | ret c' =>
    have hended : (handleRead (jsonServer J) conn.session chunk).ended = some c' := by
      rw [hf, Flow.ended]
    rw [hf] at hout
    cases hout with
    | armed ho hlive hrep hd =>
      refine .armed c' ⟨fun hst => ?_, hover, hanswer.mp ho⟩ hended (hdid hd) hrep hlive
      rw [hst] at hlive
      exact hlive
    | cleared ho hst _ hd =>
      refine .cleared c' ⟨?_, hover, hanswer.mp ho⟩ hended (hdid hd)
      rw [hst]
      simp
    | overran _ hst => exact absurd hst hover
  | throw c' =>
    have hended : (handleRead (jsonServer J) conn.session chunk).ended = some c' := by
      rw [hf, Flow.ended]
    rw [hf] at hout
    cases hout with
    | threw _ hst _ hd =>
      refine .failed (fun hok => hok.1 hst) fun c'' hc'' => ?_
      rw [hended] at hc''
      cases hc''
      exact hdid hd
    | deliveryThrew ho hd =>
      refine .failed (fun hok => ?_) fun c'' hc'' => ?_
      · rw [hanswer.mpr hok.2.2] at ho
        cases ho
      · rw [hended] at hc''
        cases hc''
        exact hdid hd
  | crash c' =>
    rw [hf] at hout
    cases hout with
    | deliveryCrashed ho =>
      refine .failed (fun hok => ?_) fun c'' hc'' => ?_
      · rw [hanswer.mpr hok.2.2] at ho
        cases ho
      · rw [hf] at hc''
        cases hc''

-- ---------------------------------------------------------------------------
-- Runs
-- ---------------------------------------------------------------------------

theorem sysInv_update (h : SysInv J s) (hsub : ∀ y ∈ sessions, y ≠ x → y ∈ s.sessions)
    (hx : x ∈ sessions → ConnInv J conn) :
    SysInv J { conns := Function.update s.conns x (some conn), sessions } := by
  intro y conn' hconn hy
  simp only at hconn hy
  by_cases hyx : y = x
  · subst hyx
    rw [Function.update_self] at hconn
    cases hconn
    exact hx hy
  · rw [Function.update_of_ne hyx] at hconn
    exact h y conn' hconn (hsub y hy hyx)

theorem connInv_fresh (J : JsonCpp) :
    ConnInv J { session := Session.fresh (jsonServer J) [], reads := 1, received := [] } :=
  ⟨rfl, rep_fresh (jsonServer J) [], trivial⟩

/-- The parser does not look at the send queue. -/
theorem connInv_ext (h : ConnInv J conn) (que : List SendNode) :
    ConnInv J { conn with session := { conn.session with ext := que } } := by
  refine ⟨h.reads, ?_, h.live⟩
  have hrep := h.rep
  change Rep _ _ (conn.decoder J)
  cases hd : conn.decoder J <;> rw [hd] at hrep <;> exact hrep

theorem sysInv_read (h : SysInv J s) (hok : ReadsOk J s (.read x chunk))
    (hconn : s.conns x = some conn) (hc : ChunkOk chunk)
    (hended : (handleRead (jsonServer J) conn.session chunk).ended = some c) :
    SysInv J (s.handled x conn chunk c) := by
  refine sysInv_update h (fun y hy hyx => ?_) fun hx => ?_
  · split at hy
    · exact Finset.mem_of_mem_erase hy
    · exact hy
  · have hmem : x ∈ s.sessions := by
      split at hx
      · exact Finset.mem_of_mem_erase hx
      · exact hx
    have hinv := h x conn hconn hmem
    have hread := hok x chunk conn rfl hmem hconn
    cases handleRead_out hinv hc hread.2.1 with
    | cleared c' _ hended' hev =>
      rw [hended] at hended'
      cases hended'
      simp [hev] at hx
    | armed c' _ hended' hev hrep hlive =>
      rw [hended] at hended'
      cases hended'
      have hdec :
          ({ session := c.session, reads := 1, received := conn.received ++ chunk } : Conn).decoder J
          = ((jsonServer J).format.run (conn.decoder J) chunk).1 := by
        simp only [Conn.decoder, Format.run_append]
      exact ⟨by simp [hinv.reads, hev], hdec ▸ hrep, hdec ▸ hlive⟩
    | failed hbad => exact absurd hread hbad

theorem sysInv_step (h : SysInv J s) (hok : ReadsOk J s a) (hstep : step J s a = some s') :
    SysInv J s' := by
  cases a with
  | accept x =>
    simp only [step] at hstep
    split at hstep
    · cases hstep
    · cases hstep
      refine sysInv_update h (fun y hy hyx => ?_) fun _ => connInv_fresh J
      exact Finset.mem_of_mem_insert_of_ne hy hyx
  | read x chunk =>
    simp only [step] at hstep
    split at hstep
    · cases hstep
    · rename_i conn hconn
      split at hstep
      · rename_i hread
        obtain ⟨c, hended, rfl⟩ := Option.map_eq_some_iff.mp hstep
        exact sysInv_read h hok hconn hread.2 hended
      · cases hstep
  | readError x =>
    simp only [step] at hstep
    split at hstep
    · cases hstep
    · split at hstep
      · cases hstep
        refine sysInv_update h (fun y hy _ => ?_) fun hx => ?_
        · simp only [handleReadError] at hy
          exact Finset.mem_of_mem_erase hy
        · simp [handleReadError] at hx
      · cases hstep
  | written x =>
    simp only [step] at hstep
    split at hstep
    · cases hstep
    · rename_i conn hconn
      split at hstep
      · cases hstep
      · cases hstep
        exact sysInv_update h (fun y hy _ => hy) fun hx => connInv_ext (h x conn hconn hx) _
  | writeError x =>
    cases hstep
    intro y conn hconn hy
    exact h y conn hconn (Finset.mem_of_mem_erase hy)

theorem sysInv_reachable (h : (system J).Reachable (ReadsOk J) s) : SysInv J s :=
  h.invariant (P := SysInv J) (by intro x conn hconn; cases hconn)
    fun _ _ _ hinv hok hstep => sysInv_step hinv hok hstep

theorem settled_of_sysInv (h : SysInv J s) (x : Nat) : Settled s x := by
  intro conn hconn
  by_cases hx : x ∈ s.sessions
  · exact .inr (h x conn hconn hx).reads
  · exact .inl hx

theorem read_settles_iff (h : SysInv J s) (hconn : s.conns x = some conn) (hx : x ∈ s.sessions)
    (hc : ChunkOk chunk)
    (hover : ((jsonServer J).format.run (conn.decoder J) chunk).1 ≠ .stopped .overran) :
    (∃ s', step J s (.read x chunk) = some s' ∧ Settled s' x) ↔ ReadOk J conn chunk := by
  have hinv := h x conn hconn hx
  have hstep : step J s (.read x chunk) =
      (handleRead (jsonServer J) conn.session chunk).ended.map (s.handled x conn chunk) := by
    simp only [step, hconn]
    rw [if_pos ⟨by rw [hinv.reads]; decide, hc⟩]
  have hsettled (c : Call (List SendNode)) : Settled (s.handled x conn chunk c) x ↔
      .clearSession ∈ c.events ∨ c.events.count .asyncReadSome = 1 := by
    simp only [Settled, State.handled, Function.update_self, Option.some.injEq, forall_eq',
      hinv.reads]
    split <;> simp_all
  rw [hstep]
  cases handleRead_out hinv hc hover with
  | cleared c' hok hended hev =>
    refine ⟨fun _ => hok, fun _ => ⟨s.handled x conn chunk c', by rw [hended]; rfl, ?_⟩⟩
    rw [hsettled, hev]
    simp
  | armed c' hok hended hev =>
    refine ⟨fun _ => hok, fun _ => ⟨s.handled x conn chunk c', by rw [hended]; rfl, ?_⟩⟩
    rw [hsettled, hev]
    simp
  | failed hbad hnone =>
    refine ⟨?_, fun hok => absurd hok hbad⟩
    rintro ⟨s', hs', hset⟩
    obtain ⟨c, hended, rfl⟩ := Option.map_eq_some_iff.mp hs'
    rw [hsettled, hnone c hended] at hset
    simp at hset

end

/-- No session is left in the map without its read while nothing throws; and a
call settles its session exactly when nothing throws. -/
theorem handleRead_settles_iff (J : JsonCpp) :
    (∀ s x, (system J).Reachable (ReadsOk J) s → Settled s x) ∧
    ∀ s x conn chunk, (system J).Reachable (ReadsOk J) s → s.conns x = some conn →
      x ∈ s.sessions → ChunkOk chunk →
      ((jsonServer J).format.run (conn.decoder J) chunk).1 ≠ .stopped .overran →
      ((∃ s', step J s (.read x chunk) = some s' ∧ Settled s' x) ↔ ReadOk J conn chunk) :=
  ⟨fun _ x h => settled_of_sysInv (sysInv_reachable h) x,
    fun _ _ _ _ h hconn hx hc hover => read_settles_iff (sysInv_reachable h) hconn hx hc hover⟩

/-- The frame `(1, "{}")`. -/
def braces : List UInt8 := [0, 1, 0, 2, 123, 125]

theorem run_braces (J : JsonCpp) : (jsonServer J).format.run (.head []) braces =
    (.head [], [(1, ascii "\x7b\x7d")]) := by
  have hframe : braces = header 1 2 ++ ascii "\x7b\x7d" := by decide +kernel
  rw [hframe]
  exact Format.run_frame length_header (verdict_body (by
    rw [jsonServer, idServer_parseHead]
    exact idHeader_header (f := (1, ascii "\x7b\x7d")) (by decide +kernel)))

theorem handleRead_settles_iff_braces :
    ∃ s', step brackets
      { conns := Function.update (fun _ => none) 0
          (some { session := Session.fresh (jsonServer brackets) [], reads := 1, received := [] })
        sessions := {0} } (.read 0 braces) = some s' ∧ Settled s' 0 := by
  have hreach : (system brackets).Reachable (ReadsOk brackets) _ :=
    Reachable.init.step (a := .accept 0) nofun rfl
  refine ((handleRead_settles_iff brackets).2 _ 0 _ braces hreach rfl (by simp) (by decide) ?_).mpr ?_
  · rw [Conn.decoder, Format.run_nil, run_braces]
    simp
  · rw [ReadOk, Conn.decoder, Format.run_nil, run_braces]
    obtain ⟨returnStr, msgId, root, ms, text, hanswers, hfits⟩ :=
      answers_braces (show headDataLen ≤ 4 by decide)
    exact ⟨by simp, by simp, ⟨returnStr, msgId, root, ms, text, hanswers, .inr hfits⟩, trivial⟩

/-- The frame `(1, "[]")`: `root["id"]` throws, and the session stays in the map
with no read. -/
theorem handleRead_zombie :
    ¬ ∀ (J : JsonCpp) (s : State) (x : Nat), (system J).Reachable anyStep s → Settled s x := by
  intro h
  obtain ⟨s, hreach, hs⟩ := reachable_of_exec (system brackets)
    [.accept 0, .read 0 [0, 1, 0, 2, 91, 93]]
    (fun s => decide (0 ∈ s.sessions) && (s.conns 0).any fun conn => conn.reads == 0)
    (by decide +kernel)
  simp only [Bool.and_eq_true, decide_eq_true_eq, Option.any_eq_true, beq_iff_eq] at hs
  obtain ⟨hmem, conn, hconn, hreads⟩ := hs
  rcases h brackets s 0 hreach conn hconn with hout | hone
  · exact hout hmem
  · omega

end DdsAuto.MsgJsonIDServer
