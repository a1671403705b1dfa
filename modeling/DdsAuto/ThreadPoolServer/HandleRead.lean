import DdsAuto.ThreadPoolServer.Statements
import DdsAuto.Lib.Lts
import DdsAuto.Lib.Mutex

/-!
# Handlers of one session on a thread pool

Several threads run the `io_context`, so the handler of a read may start as soon
as `async_read_some` has been called, on another thread, while the handler that
called it goes on. ThreadPoolServer leaves it at that; StrandPoolServer binds
the handlers to a strand, which runs one after the other. `HandleRead` is the
same in both, and `_b_head_parse = true` stands behind the call: the two agree
in the runs where no handler tests the flag before that store.

A node is posted as it stands; nothing writes to it afterwards.
-/

namespace DdsAuto.ThreadPoolServer

open Asio Framing Lts Mutex

structure Handler where
  pc : Pc
  copyLen : Int
  bytesTransferred : Nat

def Handler.call (h : Handler) (s : Session Unit) : Call Unit where
  session := s
  copyLen := h.copyLen
  bytesTransferred := h.bytesTransferred
  accesses := []
  events := []

/-- A session with its handlers, numbered as they start; `chunks` is what its
reads are still to deliver. -/
structure Pool where
  session : Session Unit
  reads : Nat
  chunks : List (List UInt8)
  handlers : Nat → Handler
  started : Nat
  posted : List RecvNode

inductive Label
  | start
  | stmt (i : Nat)

/-- A read is complete and its handler starts. -/
def Pool.start (p : Pool) (chunk : List UInt8) (chunks : List (List UInt8)) : Pool :=
  let handler := { pc := .whileTest, copyLen := 0, bytesTransferred := chunk.length }
  { p with
    session := { p.session with data := chunk }
    reads := p.reads - 1
    chunks
    handlers := Function.update p.handlers p.started handler
    started := p.started + 1 }

/-- Handler `i` executes its next statement. -/
def Pool.exec (p : Pool) (i : Nat) : Pool :=
  let (pc, c) := stmt ((p.handlers i).pc, (p.handlers i).call p.session)
  let handler := { pc, copyLen := c.copyLen, bytesTransferred := c.bytesTransferred }
  { p with
    session := c.session
    reads := p.reads + c.events.count .asyncReadSome
    handlers := Function.update p.handlers i handler
    posted := p.posted ++ c.events.filterMap Event.posted }

def Pool.AllEnded (p : Pool) : Prop := ∀ i < p.started, (p.handlers i).pc.ended = true

instance (p : Pool) : Decidable p.AllEnded := by unfold Pool.AllEnded; infer_instance

/-- On a strand a handler starts when those before it have returned. -/
def step (strand : Bool) (p : Pool) : Label → Option Pool
  | .start =>
    match p.chunks with
    | [] => none
    | chunk :: chunks =>
      if 0 < p.reads ∧ (strand = true → p.AllEnded) then some (p.start chunk chunks) else none
  | .stmt i => if (p.handlers i).pc.ended then none else some (p.exec i)

def pool (strand : Bool) (chunks : List (List UInt8)) : Lts Pool Label where
  init :=
    { session := Session.fresh postServer ()
      reads := 1
      chunks
      handlers := fun _ => { pc := .returned, copyLen := 0, bytesTransferred := 0 }
      started := 0
      posted := [] }
  step := step strand

/-- The server with threads only, after `CSession::Start`. -/
abbrev threadPool : List (List UInt8) → Lts Pool Label := pool false

abbrev strandPool : List (List UInt8) → Lts Pool Label := pool true

/-- The stream has been read and every handler has returned. -/
def Pool.Complete (p : Pool) : Prop := p.chunks = [] ∧ p.AllEnded

instance (p : Pool) : Decidable p.Complete := by unfold Pool.Complete; infer_instance

/-- No handler tests `_b_head_parse` while another has armed the read and has
yet to store the flag. -/
def TestsAfterStore (p : Pool) (a : Label) : Prop :=
  ∀ i j, a = .stmt i → (p.handlers i).pc = .testHeadParse → (p.handlers j).pc ≠ .storeHeadParse

-- ---------------------------------------------------------------------------
-- What is still to come
-- ---------------------------------------------------------------------------

/-- `nodes` are those posted and those that the decoder finds in the chunks from
session `s` on. -/
structure Ahead (nodes posted : List RecvNode) (chunks : List (List UInt8)) (s : Session Unit)
    (d : Decoder) : Prop where
  rep : Rep postServer s d
  live : d.Live
  chunksOk : ∀ chunk ∈ chunks, ChunkOk chunk
  runLive : (postServer.format.run d chunks.flatten).1.Live
  nodes : nodes =
    posted ++ (postServer.format.run d chunks.flatten).2.map fun m => bodyNode m.1 m.2

/-- A read is outstanding, or one handler parses and will arm it. -/
inductive Turn (nodes : List RecvNode) (p : Pool) (s : Session Unit) : Option Nat → Prop
  | reading (d : Decoder) : p.reads = 1 → Ahead nodes p.posted p.chunks s d → Turn nodes p s none
  | parsing (i : Nat) (c' : Call Unit) (d : Decoder) : p.reads = 0 →
      Alone ((p.handlers i).pc, (p.handlers i).call s) (.returned, c') →
      .asyncReadSome ∈ c'.events →
      Ahead nodes (p.posted ++ c'.events.filterMap Event.posted) p.chunks c'.session d →
      Turn nodes p s (some i)

/-- At most one handler parses and at most one has the late store before it;
`s` is the session with that store made. -/
structure Inv (nodes : List RecvNode) (p : Pool) (parser storer : Option Nat)
    (s : Session Unit) : Prop where
  parses : Owned parser fun i => (p.handlers i).pc.parsing = true
  stores : Owned storer fun i => (p.handlers i).pc = .storeHeadParse
  session : s = if storer = none then p.session else { p.session with bHeadParse := true }
  early : ∀ i, parser = some i → storer ≠ none →
    (p.handlers i).pc = .whileTest ∨ (p.handlers i).pc = .testHeadParse
  unstarted : ∀ i, p.started ≤ i → (p.handlers i).pc = .returned
  turn : Turn nodes p s parser

section
variable {nodes : List RecvNode} {p p' : Pool} {parser storer : Option Nat} {s : Session Unit}
variable {chunk : List UInt8} {chunks : List (List UInt8)} {i : Nat}

theorem ended_of_parsing {pc : Pc} (h : pc.parsing = true) : pc.ended = false := by
  cases pc with
  | returned | crashed | storeHeadParse => cases h
  | _ => rfl

/-- A handler that runs parses or has only the late store before it. -/
theorem parsing_of_running {pc : Pc} (h : pc.ended = false) (hstore : pc ≠ .storeHeadParse) :
    pc.parsing = true := by
  cases pc with
  | returned | crashed => cases h
  | storeHeadParse => exact absurd rfl hstore
  | _ => rfl

theorem start_pc (p : Pool) (chunk : List UInt8) (chunks : List (List UInt8)) (i : Nat) :
    ((p.start chunk chunks).handlers i).pc =
      if i = p.started then .whileTest else (p.handlers i).pc := by
  simp only [Pool.start, Function.update_apply]
  split <;> rfl

theorem inv_start (h : Inv nodes p parser storer s) (hc : p.chunks = chunk :: chunks)
    (hreads : 0 < p.reads) :
    Inv nodes (p.start chunk chunks) (some p.started) storer { s with data := chunk } := by
  cases h.turn with
  | parsing i c' d hzero => omega
  | reading d hone hahead =>
    have hfree : (p.handlers p.started).pc = .returned := h.unstarted p.started (Nat.le_refl _)
    refine ⟨h.parses.acquire ?_ fun j hj => ?_, h.stores.keep fun j => ?_, ?_, fun i hi _ => ?_,
      fun i hi => ?_, ?_⟩
    · simp [start_pc, Pc.parsing]
    · simp [start_pc, hj]
    · by_cases hj : j = p.started
      · simp [start_pc, hj, hfree]
      · simp [start_pc, hj]
    · rw [h.session]
      split <;> rfl
    · cases hi
      simp [start_pc]
    · have hi : p.started + 1 ≤ i := hi
      rw [start_pc, if_neg (by omega)]
      exact h.unstarted i (by omega)
    · obtain ⟨hrep, hlive, hok, hrun, hnodes⟩ := hahead
      rw [hc] at hok hrun hnodes
      rw [List.flatten_cons] at hrun hnodes
      have hnext := Format.live_of_run_append hrun
      rw [Format.run_append] at hrun hnodes
      obtain ⟨c', hf, hrep', hdid⟩ :=
        handleRead_live postServer_quiet hrep hlive (hok chunk (by simp)) hnext
      have halone := alone_handleRead s chunk
      rw [hf] at halone
      refine .parsing p.started c' _ (by simp [Pool.start, hone]) ?_
        (by simp [hdid.events_enter])
        ⟨hrep', hnext, fun c hmem => hok c (List.mem_cons_of_mem _ hmem), hrun, ?_⟩
      · have hnew : (p.start chunk chunks).handlers p.started =
            { pc := .whileTest, copyLen := 0, bytesTransferred := chunk.length } := by
          simp [Pool.start]
        rw [hnew]
        exact halone
      · rw [hnodes, hdid.events_enter, List.filterMap_append, posted_deliverAll]
        simp [Pool.start, Event.posted]

theorem exec_pc (p : Pool) (i j : Nat) : ((p.exec i).handlers j).pc =
    if j = i then (stmt ((p.handlers i).pc, (p.handlers i).call p.session)).1
    else (p.handlers j).pc := by
  simp only [Pool.exec, Function.update_apply]
  split <;> rfl

theorem exec_handler_ne (h : j ≠ i) : (p.exec i).handlers j = p.handlers j := by
  simp only [Pool.exec, Function.update_of_ne h]

theorem exec_unstarted (h : ∀ i, p.started ≤ i → (p.handlers i).pc = .returned)
    (hrun : (p.handlers i).pc.ended = false) :
    ∀ j, (p.exec i).started ≤ j → ((p.exec i).handlers j).pc = .returned := by
  intro j hj
  have hret := h j hj
  have hne : j ≠ i := by
    rintro rfl
    rw [hret] at hrun
    cases hrun
  rw [exec_pc, if_neg hne, hret]

theorem owned_exec {Q : Pc → Prop} {owner : Option Nat}
    (h : Owned owner fun j => Q (p.handlers j).pc)
    (hi : Q ((p.exec i).handlers i).pc ↔ Q (p.handlers i).pc) :
    Owned owner fun j => Q ((p.exec i).handlers j).pc := by
  refine h.keep fun j => ?_
  by_cases hj : j = i
  · rw [hj, hi]
  · rw [exec_handler_ne hj]

/-- The late store: the session becomes what the others have counted with. -/
theorem inv_store (h : Inv nodes p parser (some i) s) :
    Inv nodes (p.exec i) parser none s := by
  have hpc : (p.handlers i).pc = .storeHeadParse := (h.stores i).mp rfl
  have hstmt (c : Call Unit) : stmt ((p.handlers i).pc, c) = (.returned, c.setHeadParse true) := by
    rw [hpc, stmt]
  have hnew : ((p.exec i).handlers i).pc = .returned := by rw [exec_pc, if_pos rfl, hstmt]
  have hs : s = { p.session with bHeadParse := true } := h.session
  refine ⟨owned_exec (Q := fun pc => pc.parsing = true) h.parses
      (by rw [hnew, hpc]; simp [Pc.parsing]),
    h.stores.release hpc ?_ fun j hj => ?_, ?_,
    fun j _ hno => absurd rfl hno, exec_unstarted h.unstarted (by rw [hpc]; rfl), ?_⟩
  · simp [hnew]
  · rw [exec_handler_ne hj]
  · rw [hs, if_pos rfl]
    simp only [Pool.exec, hstmt]
    rfl
  · have hreads : (p.exec i).reads = p.reads := by
      simp [Pool.exec, hstmt, Call.setHeadParse, Handler.call]
    have hposted : (p.exec i).posted = p.posted := by
      simp [Pool.exec, hstmt, Call.setHeadParse, Handler.call]
    cases h.turn with
    | reading d hone hahead => exact .reading d (hreads.trans hone) (by rw [hposted]; exact hahead)
    | parsing j c' d hzero halone hin hahead =>
      have hj : j ≠ i := by
        rintro rfl
        have hpar : (p.handlers j).pc.parsing = true := (h.parses j).mp rfl
        rw [hpc] at hpar
        cases hpar
      refine .parsing j c' d (hreads.trans hzero) ?_ hin (by rw [hposted]; exact hahead)
      rw [exec_handler_ne hj]
      exact halone

/-- A handler that has yet to arm its read still does after one more statement. -/
theorem alone_exec {h : Handler} (hpar : h.pc.parsing = true) (harm : ∀ e, h.pc ≠ .asyncReadSome e)
    (halone : Alone (h.pc, h.call s) (.returned, c')) (hin : .asyncReadSome ∈ c'.events) :
    let r := stmt (h.pc, h.call s)
    let h' : Handler := { pc := r.1, copyLen := r.2.copyLen, bytesTransferred := r.2.bytesTransferred }
    r.1.parsing = true ∧ ∃ c'', Alone (r.1, h'.call r.2.session) (.returned, c'') ∧
      .asyncReadSome ∈ c''.events ∧ c'.events = r.2.events ++ c''.events ∧
      c''.session = c'.session := by
  intro r h'
  obtain ⟨hnone, hstore⟩ := stmt_parsing hpar harm (show (h.call s).events = [] from rfl)
  have hlog : r = (r.1, logged r.2.events r.2.accesses (h'.call r.2.session)) := by
    simp [h', logged, Handler.call]
  have htail : Alone r (.returned, c') := halone.tail (ended_of_parsing hpar)
  rw [hlog] at htail
  obtain ⟨c'', hrest, rfl⟩ := htail.of_logged
  have hin' : .asyncReadSome ∈ c''.events := (List.mem_append.mp hin).resolve_left hnone
  refine ⟨?_, c'', hrest, hin', rfl, rfl⟩
  cases hpc : r.1 with
  | returned | crashed =>
    -- a handler that ended here would have armed nothing
    obtain ⟨-, rfl⟩ := Prod.mk.inj (hrest.of_ended (by rw [hpc]; rfl))
    cases hin'
  | storeHeadParse => exact absurd hpc hstore
  | _ => rfl

theorem turn_exec (h : Turn nodes p s (some i)) (hpar : (p.handlers i).pc.parsing = true)
    (harm : ∀ e, (p.handlers i).pc ≠ .asyncReadSome e)
    (hr : stmt ((p.handlers i).pc, (p.handlers i).call s) = r)
    (hh : (p.exec i).handlers i =
      { pc := r.1, copyLen := r.2.copyLen, bytesTransferred := r.2.bytesTransferred })
    (hposted : (p.exec i).posted = p.posted ++ r.2.events.filterMap Event.posted) :
    r.1.parsing = true ∧ Turn nodes (p.exec i) r.2.session (some i) := by
  subst hr
  cases h with
  | parsing _ c' d hzero halone hin hahead =>
    obtain ⟨hpar', c'', hrest, hin', hev, hsession⟩ := alone_exec hpar harm halone hin
    have hnone := (stmt_parsing hpar harm
      (show ((p.handlers i).call p.session).events = [] from rfl)).1
    refine ⟨hpar', .parsing i c'' d ?_ ?_ hin' ?_⟩
    · have hcount := List.count_eq_zero_of_not_mem hnone
      simpa [Pool.exec, hzero] using hcount
    · rw [hh]
      exact hrest
    · rw [hposted, List.append_assoc, ← List.filterMap_append, ← hev, hsession]
      exact hahead

/-- The test of the loop touches nothing shared. -/
theorem inv_whileTest (h : Inv nodes p (some i) storer s) (hpc : (p.handlers i).pc = .whileTest) :
    Inv nodes (p.exec i) (some i) storer s := by
  have hpar : (p.handlers i).pc.parsing = true := by rw [hpc]; rfl
  obtain ⟨hpar', hturn⟩ := turn_exec h.turn hpar (by rw [hpc]; nofun) rfl
    (by simp [Pool.exec, hpc, stmt, Handler.call]) (by simp [Pool.exec, hpc, stmt, Handler.call])
  have hnew : ((p.exec i).handlers i).pc = .testHeadParse := by
    rw [exec_pc, if_pos rfl, hpc, stmt]
    simp only [hpc, stmt] at hpar'
    split at hpar'
    · rename_i hpos
      exact if_pos hpos
    · cases hpar'
  have hsession : (p.exec i).session = p.session := by simp [Pool.exec, hpc, stmt, Handler.call]
  refine ⟨owned_exec (Q := fun pc => pc.parsing = true) h.parses (by rw [hnew, hpc]; rfl),
    owned_exec (Q := fun pc => pc = .storeHeadParse) h.stores (by simp [hnew, hpc]),
    by rw [hsession]; exact h.session, fun j hj _ => ?_,
    exec_unstarted h.unstarted (by rw [hpc]; rfl), ?_⟩
  · cases hj
    exact .inr hnew
  · simpa [hpc, stmt, Handler.call] using hturn

/-- A handler that parses executes a statement with no store pending. -/
theorem inv_parse (h : Inv nodes p (some i) none s)
    (harm : ∀ e, (p.handlers i).pc ≠ .asyncReadSome e) :
    Inv nodes (p.exec i) (some i) none (p.exec i).session := by
  have hpar : (p.handlers i).pc.parsing = true := (h.parses i).mp rfl
  have hs : s = p.session := h.session
  subst hs
  obtain ⟨hpar', hturn⟩ := turn_exec h.turn hpar harm rfl (by simp [Pool.exec])
    (by simp [Pool.exec])
  have hpc' : ((p.exec i).handlers i).pc =
      (stmt ((p.handlers i).pc, (p.handlers i).call p.session)).1 := by rw [exec_pc, if_pos rfl]
  refine ⟨owned_exec (Q := fun pc => pc.parsing = true) h.parses (by rw [hpc', hpar', hpar]),
    owned_exec (Q := fun pc => pc = .storeHeadParse) h.stores ⟨fun hst => ?_, fun hst => ?_⟩,
    rfl, fun j _ hno => absurd rfl hno, exec_unstarted h.unstarted (ended_of_parsing hpar),
    hturn⟩
  · rw [← hpc', hst] at hpar'
    cases hpar'
  · rw [hst] at hpar
    cases hpar

/-- Once the read is armed the handler parses no more; the first part of a body
leaves it with the late store. -/
theorem inv_arm (h : Inv nodes p (some i) none s) (hpc : (p.handlers i).pc = .asyncReadSome e) :
    ∃ storer s', Inv nodes (p.exec i) none storer s' := by
  have hs : s = p.session := h.session
  subst hs
  have hstmt (c : Call Unit) : stmt ((p.handlers i).pc, c) =
      (if e = .newBodyPart then .storeHeadParse else .returned, c.emit .asyncReadSome) := by
    rw [hpc, stmt]
  have hnew : ((p.exec i).handlers i).pc =
      if e = .newBodyPart then .storeHeadParse else .returned := by rw [exec_pc, if_pos rfl, hstmt]
  have hparses : Owned none fun j => ((p.exec i).handlers j).pc.parsing = true :=
    h.parses.release (t := i) (by simp only [hpc]; rfl) (by rw [hnew]; split <;> simp [Pc.parsing])
      fun j hj => by rw [exec_handler_ne hj]
  have hunstarted :=
    exec_unstarted h.unstarted (show (p.handlers i).pc.ended = false by rw [hpc]; rfl)
  have hsession : (p.exec i).session = p.session := by
    simp [Pool.exec, hstmt, Call.emit, Handler.call]
  have hposted : (p.exec i).posted = p.posted := by
    simp [Pool.exec, hstmt, Call.emit, Handler.call, Event.posted]
  cases h.turn with
  | parsing _ c' d hzero halone hin hahead =>
    have hreads : (p.exec i).reads = 1 := by
      simp [Pool.exec, hstmt, Call.emit, Handler.call, hzero]
    have htail := halone.tail (by rw [hpc]; rfl)
    rw [hstmt] at htail
    by_cases he : e = .newBodyPart
    · rw [if_pos he] at hnew htail
      obtain ⟨-, rfl⟩ := Prod.mk.inj ((htail.tail rfl).of_ended rfl)
      refine ⟨some i, _, hparses, h.stores.acquire hnew fun j hj => by rw [exec_handler_ne hj], rfl,
        by simp, hunstarted, .reading d hreads ?_⟩
      rw [if_neg (by simp), hposted, hsession, ← List.append_nil p.posted]
      exact hahead
    · rw [if_neg he] at hnew htail
      obtain ⟨-, rfl⟩ := Prod.mk.inj (htail.of_ended rfl)
      refine ⟨none, _, hparses,
        owned_exec (Q := fun pc => pc = .storeHeadParse) h.stores (by simp [hnew, hpc]), rfl,
        by simp, hunstarted, .reading d hreads ?_⟩
      rw [if_pos rfl, hposted, hsession, ← List.append_nil p.posted]
      exact hahead

theorem inv_step (h : Inv nodes p parser storer s) (hok : TestsAfterStore p a)
    (hstep : step strand p a = some p') : ∃ parser storer s, Inv nodes p' parser storer s := by
  cases a with
  | start =>
    simp only [step] at hstep
    split at hstep
    · cases hstep
    · rename_i chunk chunks hc
      split at hstep
      · rename_i hread
        cases hstep
        exact ⟨_, _, _, inv_start h hc hread.1⟩
      · cases hstep
  | stmt i =>
    simp only [step] at hstep
    split at hstep
    · cases hstep
    · rename_i hended
      cases hstep
      by_cases hstore : (p.handlers i).pc = .storeHeadParse
      · obtain rfl := (h.stores i).mpr hstore
        exact ⟨_, _, _, inv_store h⟩
      · have hpar := parsing_of_running (Bool.not_eq_true _ ▸ hended) hstore
        obtain rfl := (h.parses i).mpr hpar
        cases storer with
        | none =>
          by_cases harm : ∃ e, (p.handlers i).pc = .asyncReadSome e
          · obtain ⟨e, harm⟩ := harm
            obtain ⟨storer, s', hinv⟩ := inv_arm h harm
            exact ⟨_, _, _, hinv⟩
          · exact ⟨_, _, _, inv_parse h fun e he => harm ⟨e, he⟩⟩
        | some j =>
          -- the condition keeps the handler in front of its first test
          rcases h.early i rfl nofun with hpc | hpc
          · exact ⟨_, _, _, inv_whileTest h hpc⟩
          · exact absurd ((h.stores j).mp rfl) (hok i j rfl hpc)

theorem inv_init (hc : ∀ chunk ∈ chunks, ChunkOk chunk)
    (hrun : (postServer.format.run (.head []) chunks.flatten).1.Live) :
    Inv ((postServer.format.run (.head []) chunks.flatten).2.map fun m => bodyNode m.1 m.2)
      (pool strand chunks).init none none (Session.fresh postServer ()) :=
  ⟨fun i => ⟨nofun, nofun⟩, fun i => ⟨nofun, nofun⟩, rfl, nofun, fun _ _ => rfl,
    .reading (.head []) rfl ⟨rep_fresh postServer (), trivial, hc, hrun, by simp [pool]⟩⟩

theorem inv_reachable (hc : ∀ chunk ∈ chunks, ChunkOk chunk)
    (hrun : (postServer.format.run (.head []) chunks.flatten).1.Live)
    (h : (pool strand chunks).Reachable TestsAfterStore p) :
    ∃ parser storer s,
      Inv ((postServer.format.run (.head []) chunks.flatten).2.map fun m => bodyNode m.1 m.2)
        p parser storer s :=
  h.invariant (P := fun p => ∃ parser storer s, Inv _ p parser storer s)
    ⟨none, none, _, inv_init hc hrun⟩
    fun _ _ _ ⟨_, _, _, hinv⟩ hok hstep => inv_step hinv hok hstep

/-- What is posted is the front of what the decoder finds, and all of it once
the stream is read and the handlers are done. -/
theorem posted_of_inv (h : Inv nodes p parser storer s) :
    p.posted <+: nodes ∧ (p.Complete → p.posted = nodes) := by
  cases h.turn with
  | reading d _ hahead =>
    rw [hahead.nodes]
    refine ⟨List.prefix_append _ _, fun ⟨hchunks, _⟩ => ?_⟩
    simp [hchunks]
  | parsing i c' d _ _ _ hahead =>
    rw [hahead.nodes, List.append_assoc]
    refine ⟨List.prefix_append _ _, fun ⟨_, hall⟩ => ?_⟩
    have hpar : (p.handlers i).pc.parsing = true := (h.parses i).mp rfl
    have hstarted : i < p.started := by
      by_contra hge
      rw [h.unstarted i (by omega)] at hpar
      cases hpar
    have hended := hall i hstarted
    rw [ended_of_parsing hpar] at hended
    cases hended

-- ---------------------------------------------------------------------------
-- The strand
-- ---------------------------------------------------------------------------

/-- No two handlers run. -/
structure OneRuns (p : Pool) : Prop where
  unique : ∀ i j, (p.handlers i).pc.ended = false → (p.handlers j).pc.ended = false → i = j
  unstarted : ∀ i, p.started ≤ i → (p.handlers i).pc.ended = true

theorem step_strand (h : step true p a = some p') : step false p a = some p' := by
  cases a with
  | stmt i => exact h
  | start =>
    simp only [step] at h ⊢
    split at h
    · cases h
    · split at h
      · rename_i hread
        cases h
        rw [if_pos ⟨hread.1, nofun⟩]
      · cases h

theorem oneRuns_start (h : OneRuns p) (hall : p.AllEnded) (chunk : List UInt8)
    (chunks : List (List UInt8)) : OneRuns (p.start chunk chunks) := by
  have hother (i : Nat) (hi : i ≠ p.started) :
      ((p.start chunk chunks).handlers i).pc.ended = true := by
    rw [start_pc, if_neg hi]
    by_cases hlt : i < p.started
    · exact hall i hlt
    · exact h.unstarted i (Nat.not_lt.mp hlt)
  have hnew (i : Nat) (hi : ((p.start chunk chunks).handlers i).pc.ended = false) :
      i = p.started := by
    by_contra hne
    rw [hother i hne] at hi
    cases hi
  refine ⟨fun i j hi hj => (hnew i hi).trans (hnew j hj).symm, fun i hi => hother i ?_⟩
  have hi : p.started + 1 ≤ i := hi
  omega

theorem oneRuns_exec (h : OneRuns p) (hi : (p.handlers i).pc.ended = false) :
    OneRuns (p.exec i) := by
  have hother (j : Nat) (hj : j ≠ i) : ((p.exec i).handlers j).pc.ended = true := by
    rw [exec_handler_ne hj]
    by_contra hrun
    exact hj (h.unique j i (Bool.eq_false_iff.mpr hrun) hi)
  have hlast (j : Nat) (hj : ((p.exec i).handlers j).pc.ended = false) : j = i := by
    by_contra hne
    rw [hother j hne] at hj
    cases hj
  refine ⟨fun j k hj hk => (hlast j hj).trans (hlast k hk).symm, fun j hj => hother j ?_⟩
  rintro rfl
  rw [h.unstarted j hj] at hi
  cases hi

theorem oneRuns_step (h : OneRuns p) (hstep : step true p a = some p') : OneRuns p' := by
  cases a with
  | start =>
    simp only [step] at hstep
    split at hstep
    · cases hstep
    · split at hstep
      · rename_i hread
        cases hstep
        exact oneRuns_start h (hread.2 trivial) _ _
      · cases hstep
  | stmt i =>
    simp only [step] at hstep
    split at hstep
    · cases hstep
    · rename_i hended
      cases hstep
      exact oneRuns_exec h (Bool.eq_false_iff.mpr hended)

/-- A handler that tests the flag is the only one that runs. -/
theorem testsAfterStore_of_oneRuns (h : OneRuns p) (a : Label) : TestsAfterStore p a := by
  intro i j _ htest hstore
  have hij := h.unique i j (by rw [htest]; rfl) (by rw [hstore]; rfl)
  subst hij
  rw [htest] at hstore
  cases hstore

/-- The runs on a strand are among those of the pool that meet the condition. -/
theorem threadPool_of_strandPool (h : (strandPool chunks).Reachable anyStep p) :
    (threadPool chunks).Reachable TestsAfterStore p := by
  have hone (p : Pool) (h : (strandPool chunks).Reachable anyStep p) : OneRuns p :=
    h.invariant (P := OneRuns) ⟨nofun, fun _ _ => rfl⟩ fun _ _ _ hp _ hstep => oneRuns_step hp hstep
  induction h with
  | init => exact .init
  | step hr _ hstep ih => exact ih.step (testsAfterStore_of_oneRuns (hone _ hr) _) (step_strand hstep)

theorem posted_pool (hf : ∀ f ∈ frames, FrameOk f) (hc : ∀ chunk ∈ chunks, ChunkOk chunk)
    (hcut : chunks.flatten = sendFrames frames)
    (hp : (threadPool chunks).Reachable TestsAfterStore p) :
    p.posted <+: (frames.map fun f => bodyNode f.1 f.2) ∧
      (p.Complete → p.posted = frames.map fun f => bodyNode f.1 f.2) := by
  have hrun : postServer.format.run (.head []) chunks.flatten = (.head [], frames) := by
    rw [hcut]
    exact run_sendFrames _ hf
  obtain ⟨parser, storer, s, hinv⟩ := inv_reachable hc (by rw [hrun]; trivial) hp
  rw [hrun] at hinv
  exact posted_of_inv hinv

end

/-- The two servers post the same, if no handler of the pool tests the flag
between an `async_read_some` and the store behind it. -/
theorem threadPool_agrees (frames : List (Int × List UInt8)) (chunks : List (List UInt8))
    (p q : Pool) (hf : ∀ f ∈ frames, FrameOk f) (hc : ∀ chunk ∈ chunks, ChunkOk chunk)
    (hcut : chunks.flatten = sendFrames frames)
    (hp : (threadPool chunks).Reachable TestsAfterStore p)
    (hq : (strandPool chunks).Reachable anyStep q) :
    (p.Complete → q.Complete → p.posted = q.posted) ∧
      (q.Complete → p.posted <+: q.posted) ∧ (p.Complete → q.posted <+: p.posted) := by
  obtain ⟨hpre, hall⟩ := posted_pool hf hc hcut hp
  obtain ⟨hpre', hall'⟩ := posted_pool hf hc hcut (threadPool_of_strandPool hq)
  refine ⟨fun hdone hdone' => ?_, fun hdone' => ?_, fun hdone => ?_⟩
  · rw [hall hdone, hall' hdone']
  · rw [hall' hdone']
    exact hpre
  · rw [hall hdone]
    exact hpre'

/-- The frame `(1, [7])` cut behind its header. -/
def cutFrame : List (List UInt8) := [[0, 1, 0, 1], [7]]

/-- One handler after the other. -/
def inTurn : List Label :=
  [.start] ++ List.replicate 20 (.stmt 0) ++ [.start] ++ List.replicate 15 (.stmt 1)

/-- The handler of `[7]` runs before the handler of the header has stored
`_b_head_parse`, and takes the byte for a header's. -/
def lateStore : List Label :=
  [.start] ++ List.replicate 19 (.stmt 0) ++ [.start] ++ List.replicate 7 (.stmt 1) ++ [.stmt 0]

theorem inTurn_posts : ∃ q, (strandPool cutFrame).Reachable anyStep q ∧ q.Complete ∧
    q.posted = [bodyNode 1 [7]] := by
  obtain ⟨q, hreach, hq⟩ := reachable_of_exec (strandPool cutFrame) inTurn
    (fun q => decide (q.Complete ∧ q.posted = [bodyNode 1 [7]])) (by decide +kernel)
  exact ⟨q, hreach, of_decide_eq_true hq⟩

theorem cutFrame_eq : cutFrame.flatten = sendFrames [(1, [7])] := by
  have hframe : FrameOk (1, [7]) := by decide
  rw [sendFrames, List.flatMap_singleton, sendFrame_eq hframe]
  decide +kernel

theorem threadPool_agrees_cutFrame :
    ∃ p q, (threadPool cutFrame).Reachable TestsAfterStore p ∧
      (strandPool cutFrame).Reachable anyStep q ∧ p.posted = q.posted ∧
      q.posted = [bodyNode 1 [7]] := by
  obtain ⟨q, hreach, hdone, hposted⟩ := inTurn_posts
  have hpool := threadPool_of_strandPool hreach
  have hagree := threadPool_agrees [(1, [7])] cutFrame q q (by decide) (by decide) cutFrame_eq
    hpool hreach
  exact ⟨q, q, hpool, hreach, hagree.1 hdone hdone, hposted⟩

/-- The byte behind the header is lost. -/
theorem threadPool_disagrees :
    ¬ ∀ (frames : List (Int × List UInt8)) (chunks : List (List UInt8)) (p q : Pool),
      (∀ f ∈ frames, FrameOk f) → (∀ chunk ∈ chunks, ChunkOk chunk) →
      chunks.flatten = sendFrames frames → (threadPool chunks).Reachable anyStep p →
      (strandPool chunks).Reachable anyStep q → p.Complete → q.Complete →
      p.posted = q.posted := by
  intro h
  obtain ⟨p, hp, hlate⟩ := reachable_of_exec (threadPool cutFrame) lateStore
    (fun p => decide (p.Complete ∧ p.posted = [])) (by decide +kernel)
  obtain ⟨hdone, hnone⟩ := of_decide_eq_true hlate
  obtain ⟨q, hq, hdone', hposted⟩ := inTurn_posts
  have heq := h [(1, [7])] cutFrame p q (by decide) (by decide) cutFrame_eq hp hq hdone hdone'
  rw [hnone, hposted] at heq
  cases heq

end DdsAuto.ThreadPoolServer
