import DdsAuto.Asio.ReaderSound

/-!
# A session's run

`serve` calls `HandleRead` once for each chunk, for as long as a read is armed.
For a server whose deliveries return, the decoder state after the chunks read
so far decides whether there is a next call and how it ends.
-/

namespace DdsAuto.Asio

open CInt Memory Framing

/-- The call a handler ends with, `throw` being caught in the handler. -/
def Flow.ended : Flow ε → Option (Call ε)
  | .ret c | .throw c => some c
  | .next _ | .crash _ => none

def Flow.call : Flow ε → Call ε
  | .next c | .ret c | .throw c | .crash c => c

/-- One call of `HandleRead`: the session before it, its chunk and its end. -/
structure Handled (ε : Type) where
  before : Session ε
  chunk : List UInt8
  flow : Flow ε

/-- One call for each chunk, for as long as the call before it armed a read. -/
def serve (srv : Server ε) : Session ε → List (List UInt8) → List (Handled ε)
  | _, [] => []
  | s, chunk :: chunks =>
    let flow := handleRead srv s chunk
    ⟨s, chunk, flow⟩ :: match flow.ended with
      | some c => if .asyncReadSome ∈ c.events then serve srv c.session chunks else []
      | none => []

attribute [local simp] serve

/-- What one read can deliver into `_data`. -/
def ChunkOk (chunk : List UInt8) : Prop := chunk ≠ [] ∧ chunk.length ≤ 2048

instance (chunk : List UInt8) : Decidable (ChunkOk chunk) := by unfold ChunkOk; infer_instance

theorem rep_fresh (srv : Server ε) (ext : ε) : Rep srv (Session.fresh srv ext) (.head []) :=
  ⟨rfl, headRep_fresh ext⟩

-- ---------------------------------------------------------------------------
-- Servers whose deliveries return
-- ---------------------------------------------------------------------------

/-- A delivery that returns and leaves the session's read and entry alone. -/
structure Delivery.Quiet (r : Delivery ε) : Prop where
  returned : r.outcome = .returned
  noRead : .asyncReadSome ∉ r.events
  noClear : .clearSession ∉ r.events
  safe : Safe r.accesses

def Server.Quiet (srv : Server ε) : Prop := ∀ node ext, (srv.deliver node ext).Quiet

section
variable {ε : Type} {srv : Server ε} {s : Session ε} {ext : ε} {d : Decoder}
variable {chunk : List UInt8} {chunks : List (List UInt8)}

theorem Delivery.Quiet.andThen {r : Delivery ε} (h : r.Quiet) {next : ε → Delivery ε}
    (hnext : ∀ ext, (next ext).Quiet) : (r.andThen next).Quiet := by
  have hn := hnext r.ext
  unfold Delivery.andThen
  rw [h.returned]
  exact ⟨hn.returned, by simp [h.noRead, hn.noRead], by simp [h.noClear, hn.noClear],
    by simp [h.safe, hn.safe]⟩

theorem deliverAll_quiet (hq : srv.Quiet) (msgs : List (Int × List UInt8)) :
    ∀ ext, (deliverAll srv msgs ext).Quiet := by
  induction msgs with
  | nil => exact fun ext => ⟨rfl, by simp [deliverAll], by simp [deliverAll], by simp [deliverAll]⟩
  | cons m msgs ih => exact fun ext => (hq _ ext).andThen ih

/-- A call whose deliveries return arms the next read while nothing stops the decoder. -/
theorem handleRead_returned (h : Rep srv s d) (hd : d.Live) (hc : ChunkOk chunk)
    (hlive : (srv.format.run d chunk).1.Live)
    (hret : (deliverAll srv (srv.format.run d chunk).2 s.ext).outcome = .returned) :
    ∃ c', handleRead srv s chunk = .ret c' ∧ Rep srv c'.session (srv.format.run d chunk).1 ∧
      Did (enter s chunk) c' (deliverAll srv (srv.format.run d chunk).2 s.ext)
        [.asyncReadSome] := by
  have hout := handleRead_sound h hd hc.1 hc.2
  generalize handleRead srv s chunk = f at hout
  cases hout with
  | armed _ _ hrep hdid => exact ⟨_, rfl, hrep, hdid⟩
  | cleared _ hst | threw _ hst | overran _ hst =>
    rw [hst] at hlive
    exact hlive.elim
  | deliveryThrew ho | deliveryCrashed ho =>
    rw [hret] at ho
    cases ho

/-- A delivery that throws ends the call, and no read is armed. -/
theorem handleRead_deliveryThrew (h : Rep srv s d) (hd : d.Live) (hc : ChunkOk chunk)
    (hthrew : (deliverAll srv (srv.format.run d chunk).2 s.ext).outcome = .threw) :
    ∃ c', handleRead srv s chunk = .throw c' ∧
      Did (enter s chunk) c' (deliverAll srv (srv.format.run d chunk).2 s.ext) [] := by
  have hout := handleRead_sound h hd hc.1 hc.2
  generalize handleRead srv s chunk = f at hout
  cases hout with
  | deliveryThrew _ hdid => exact ⟨_, rfl, hdid⟩
  | armed ho | cleared ho | threw ho | overran ho | deliveryCrashed ho =>
    rw [hthrew] at ho
    cases ho

theorem handleRead_live (hq : srv.Quiet) (h : Rep srv s d) (hd : d.Live) (hc : ChunkOk chunk)
    (hlive : (srv.format.run d chunk).1.Live) :
    ∃ c', handleRead srv s chunk = .ret c' ∧ Rep srv c'.session (srv.format.run d chunk).1 ∧
      Did (enter s chunk) c' (deliverAll srv (srv.format.run d chunk).2 s.ext)
        [.asyncReadSome] :=
  handleRead_returned h hd hc hlive (deliverAll_quiet hq (srv.format.run d chunk).2 s.ext).returned

/-- How the last call of a session ends, by the reason why decoding stopped. -/
def Stopped (srv : Server ε) (s : Session ε) (chunk : List UInt8) (r : Delivery ε) :
    Stop → Flow ε → Prop
  | .cleared, f => ∃ c', f = .ret c' ∧ Idle srv c'.session ∧ Did (enter s chunk) c' r [.clearSession]
  | .threw, f => ∃ c', f = .throw c' ∧ Idle srv c'.session ∧ Did (enter s chunk) c' r []
  | .overran, f => ∃ c', f = .ret c' ∧ ¬ Safe c'.accesses

theorem handleRead_stopped (hq : srv.Quiet) (h : Rep srv s d) (hd : d.Live) (hc : ChunkOk chunk)
    (hstop : (srv.format.run d chunk).1 = .stopped reason) :
    Stopped srv s chunk (deliverAll srv (srv.format.run d chunk).2 s.ext) reason
      (handleRead srv s chunk) := by
  have hret := (deliverAll_quiet hq (srv.format.run d chunk).2 s.ext).returned
  have hout := handleRead_sound h hd hc.1 hc.2
  generalize handleRead srv s chunk = f at hout
  cases hout with
  | armed _ hlive =>
    rw [hstop] at hlive
    exact hlive.elim
  | cleared _ hst hidle hdid =>
    rw [hstop] at hst
    cases hst
    exact ⟨_, rfl, hidle, hdid⟩
  | threw _ hst hidle hdid =>
    rw [hstop] at hst
    cases hst
    exact ⟨_, rfl, hidle, hdid⟩
  | overran _ hst hbad =>
    rw [hstop] at hst
    cases hst
    exact ⟨_, rfl, hbad⟩
  | deliveryThrew ho | deliveryCrashed ho =>
    rw [hret] at ho
    cases ho

theorem Did.events_enter {c' : Call ε} {r : Delivery ε} (h : Did (enter s chunk) c' r evs) :
    c'.events = r.events ++ evs := by
  simpa [enter] using h.2.1

theorem Did.safe_enter {c' : Call ε} {r : Delivery ε} (h : Did (enter s chunk) c' r evs) :
    Safe c'.accesses ↔ Safe r.accesses := by
  simpa [enter] using h.2.2

theorem serve_cons_armed (hf : handleRead srv s chunk = .ret c')
    (he : .asyncReadSome ∈ c'.events) :
    serve srv s (chunk :: chunks) = ⟨s, chunk, .ret c'⟩ :: serve srv c'.session chunks := by
  simp [serve, hf, Flow.ended, he]

/-- Nothing is read after a call that refused a header or threw. -/
theorem serve_cons_stopped (hq : srv.Quiet) (h : Rep srv s d) (hd : d.Live) (hc : ChunkOk chunk)
    (hstop : (srv.format.run d chunk).1 = .stopped reason) (hreason : reason ≠ .overran) :
    serve srv s (chunk :: chunks) = [⟨s, chunk, handleRead srv s chunk⟩] := by
  have hend := handleRead_stopped hq h hd hc hstop
  have hno := (deliverAll_quiet hq (srv.format.run d chunk).2 s.ext).noRead
  cases reason with
  | cleared =>
    obtain ⟨c', hf, -, hdid⟩ := hend
    simp [serve, hf, Flow.ended, hdid.events_enter, hno]
  | threw =>
    obtain ⟨c', hf, -, hdid⟩ := hend
    simp [serve, hf, Flow.ended, hdid.events_enter, hno]
  | overran => exact absurd rfl hreason

/-- The call on chunk `i` starts in the decoder state the chunks before left. -/
theorem serve_get_live (hq : srv.Quiet) (h : Rep srv s d) (hd : d.Live)
    (hc : ∀ chunk ∈ chunks, ChunkOk chunk) (hi : i < chunks.length)
    (hlive : (srv.format.run d (chunks.take i).flatten).1.Live) :
    ∃ s', (serve srv s chunks)[i]? = some ⟨s', chunks[i], handleRead srv s' chunks[i]⟩ ∧
      Rep srv s' (srv.format.run d (chunks.take i).flatten).1 := by
  induction chunks generalizing s d i with
  | nil => simp at hi
  | cons chunk chunks ih =>
    cases i with
    | zero => exact ⟨s, by simp [serve], by simpa using h⟩
    | succ i =>
      simp only [List.take_succ_cons, List.flatten_cons] at hlive ⊢
      have hnext := Format.live_of_run_append hlive
      obtain ⟨c', hf, hrep, hdid⟩ := handleRead_live hq h hd (hc chunk (by simp)) hnext
      rw [Format.run_append] at hlive ⊢
      obtain ⟨s', hs, hrep'⟩ := ih hrep hnext (fun chunk hmem => hc chunk (by simp [hmem]))
        (by simpa using hi) hlive
      refine ⟨s', ?_, hrep'⟩
      rw [serve_cons_armed hf (by simp [hdid.events_enter])]
      simpa using hs

theorem serve_get_stopped (hq : srv.Quiet) (h : Rep srv s d) (hd : d.Live)
    (hc : ∀ chunk ∈ chunks, ChunkOk chunk) (hreason : reason ≠ .overran)
    (hstop : (srv.format.run d (chunks.take i).flatten).1 = .stopped reason) :
    (serve srv s chunks)[i]? = none := by
  induction chunks generalizing s d i with
  | nil => simp [serve]
  | cons chunk chunks ih =>
    cases i with
    | zero =>
      rw [List.take_zero, List.flatten_nil, Format.run_nil] at hstop
      subst hstop
      exact hd.elim
    | succ i =>
      simp only [List.take_succ_cons, List.flatten_cons, Format.run_append] at hstop
      cases hrun : (srv.format.run d chunk).1 with
      | stopped reason' =>
        rw [hrun, Format.run_stopped] at hstop
        cases hstop
        rw [serve_cons_stopped hq h hd (hc chunk (by simp)) hrun hreason]
        simp
      | head | body =>
        have hlive : (srv.format.run d chunk).1.Live := by rw [hrun]; trivial
        obtain ⟨c', hf, hrep, hdid⟩ := handleRead_live hq h hd (hc chunk (by simp)) hlive
        rw [serve_cons_armed hf (by simp [hdid.events_enter])]
        simpa using ih hrep hlive (fun chunk hmem => hc chunk (by simp [hmem])) hstop

/-- While nothing stops the decoder each call delivers and arms one read. -/
theorem serve_live_events (hq : srv.Quiet) (h : Rep srv s d) (hd : d.Live)
    (hc : ∀ chunk ∈ chunks, ChunkOk chunk)
    (hlive : (srv.format.run d chunks.flatten).1.Live) :
    ∀ call ∈ serve srv s chunks, ∃ msgs ext,
      call.flow.call.events = (deliverAll srv msgs ext).events ++ [.asyncReadSome] := by
  induction chunks generalizing s d with
  | nil => simp [serve]
  | cons chunk chunks ih =>
    rw [List.flatten_cons] at hlive
    have hnext := Format.live_of_run_append hlive
    rw [Format.run_append] at hlive
    obtain ⟨c', hf, hrep, hdid⟩ := handleRead_live hq h hd (hc chunk (by simp)) hnext
    rw [serve_cons_armed hf (by simp [hdid.events_enter])]
    exact List.forall_mem_cons.mpr ⟨⟨_, _, hdid.events_enter⟩,
      ih hrep hnext (fun chunk hmem => hc chunk (by simp [hmem])) hlive⟩

end

end DdsAuto.Asio
