import DdsAuto.Lib.Lts
import DdsAuto.Svmsgmpx1q.Processes
import Mathlib.Algebra.Order.BigOperators.Group.Finset
import Mathlib.Data.Fintype.BigOperators

/-!
# One queue for everything

`server(q, q)` and `client(q, q)` on one queue of a given capacity. Requests
and replies take each other's room: while the server waits for room to send,
nobody takes the requests off the queue, and the replies that a client does not
read stay in it.

`no_deadlock_iff`: there is no deadlock exactly if, whichever client is left
out, the others cannot fill the queue, each with a request or with the replies
that come after its first empty one.
-/

namespace DdsAuto.Svmsgmpx1q.SingleQueue

open Function MsgQueue Svmsg

structure Setup (C : Type) extends Clients C where
  capacity : Nat
  capacity_pos : 0 < capacity

structure State (C : Type) where
  server : Server
  queue : Queue
  clients : C → Client

variable {C : Type}

def State.init : State C where
  server := .recv
  queue := []
  clients := fun _ => ⟨.send, []⟩

/-- `msgsnd` takes only types above 0. -/
def server (su : Setup C) (s : State C) : Option (State C) :=
  match s.server with
  | .recv => (rcv 1 s.queue).map fun (m, rest) =>
      { s with queue := rest, server := .received su.fopen m.data }
  | .send mesg_type m todo =>
    if mesg_type ≤ 0 then some { s with server := .exited }
    else if s.queue.length < su.capacity then
      some { s with queue := s.queue ++ [⟨mesg_type, m⟩], server := .sending mesg_type todo }
    else none
  | .exited => none

section
variable [DecidableEq C]

def State.setClient (s : State C) (c : C) (cl : Client) : State C :=
  { s with clients := update s.clients c cl }

def client (su : Setup C) (c : C) (s : State C) : Option (State C) :=
  let cl := s.clients c
  match cl.pc with
  | .send =>
    if s.queue.length < su.capacity then
      let m : Msg (List UInt8) := ⟨1, su.request c⟩
      some (({ s with queue := s.queue ++ [m] }).setClient c { cl with pc := .recv (su.pid c) })
    else none
  | .recv mesg_type => (rcv mesg_type s.queue).map fun (m, rest) =>
      ({ s with queue := rest }).setClient c (cl.received m)
  | .done => none

inductive Label (C : Type)
  | server
  | client (c : C)

def step (su : Setup C) (s : State C) : Label C → Option (State C)
  | .server => server su s
  | .client c => client su c s

def lts (su : Setup C) : Lts (State C) (Label C) := ⟨State.init, step su⟩

/-- An unfinished client, and every process blocked. -/
def Deadlock (su : Setup C) (s : State C) : Prop :=
  (∃ c, (s.clients c).pc ≠ .done) ∧ ∀ a, step su s a = none

end

/-- Number of replies after the first empty one: no client reads them. -/
def Setup.unread (su : Setup C) (c : C) : Nat :=
  ((su.answer c).dropWhile (· ≠ [])).tail.length

/-- How much of the queue a client can take up while another one is served. -/
def Setup.weight (su : Setup C) (c : C) : Nat := max 1 (su.unread c)

/-- Without any one client, the others do not fill the queue. -/
def Fits [Fintype C] [DecidableEq C] (su : Setup C) : Prop :=
  ∀ k, ∑ c ∈ Finset.univ.erase k, su.weight c < su.capacity

-- ---------------------------------------------------------------------------
-- The invariant
-- ---------------------------------------------------------------------------

/-- A client has not sent; or it waits, for its request to be taken up or for
the rest of its answer; or it is done. `waits`: its request is in the queue;
`queued` and `todo` are its replies in the queue and in the server. -/
def ClientOk (pid : Int) (answer : List (List UInt8)) (waits : Prop)
    (queued todo : List (List UInt8)) : ClientPc → Prop
  | .send => ¬ waits ∧ queued = [] ∧ todo = []
  | .recv mesg_type => mesg_type = pid ∧ (waits ∧ queued = [] ∧ todo = [] ∨
      ¬ waits ∧ ∃ read, answer = read ++ (queued ++ todo) ∧ ∀ m ∈ read, m ≠ [])
  | .done => ¬ waits ∧ ∃ read, answer = read ++ [] :: (queued ++ todo) ∧ ∀ m ∈ read, m ≠ []

/-- `waiting` are the clients whose requests are in the queue. -/
structure Inv (su : Setup C) (waiting : List C) (s : State C) : Prop where
  requests : ofType 1 s.queue = waiting.map su.request
  nodup : waiting.Nodup
  typed : ∀ m ∈ s.queue, m.type = 1 ∨ ∃ c, m.type = su.pid c
  server : s.server = .recv ∨ ∃ c m todo, s.server = .send (su.pid c) m todo
  clients : ∀ c, ClientOk (su.pid c) (su.answer c) (c ∈ waiting) (ofType (su.pid c) s.queue)
    (s.server.todo (su.pid c)) (s.clients c).pc

section
variable {su : Setup C} {s s' : State C} {waiting waiting' : List C} {c : C}

theorem inv_init (su : Setup C) : Inv su [] State.init where
  requests := rfl
  nodup := List.nodup_nil
  typed := fun m hm => by cases hm
  server := .inl rfl
  clients := fun c => ⟨by simp, rfl, rfl⟩

/-- The clients that neither move nor are served. -/
theorem clientOk_other {d : C} (h : Inv su waiting s) {queue : Queue} {server : Server}
    (hwaits : d ∈ waiting' ↔ d ∈ waiting) (hqueued : ofType (su.pid d) queue = ofType (su.pid d) s.queue)
    (htodo : server.todo (su.pid d) = s.server.todo (su.pid d)) :
    ClientOk (su.pid d) (su.answer d) (d ∈ waiting') (ofType (su.pid d) queue)
      (server.todo (su.pid d)) (s.clients d).pc := by
  rw [hqueued, htodo, hwaits]
  exact h.clients d

/-- What a step does to the clients that wait, and to the state. -/
inductive Moves [DecidableEq C] (su : Setup C) (s : State C) :
    List C → Label C → List C → State C → Prop
  | take (c : C) (waiting : List C) (rest : Queue) (m : List UInt8) (todo : List (List UInt8))
      (hserver : s.server = .recv) (hrcv : rcv 1 s.queue = some (⟨1, su.request c⟩, rest))
      (hanswer : su.answer c = m :: todo) :
      Moves su s (c :: waiting) .server waiting
        { s with queue := rest, server := .send (su.pid c) m todo }
  | reply (c : C) (waiting : List C) (m : List UInt8) (todo : List (List UInt8))
      (hserver : s.server = .send (su.pid c) m todo) (hroom : s.queue.length < su.capacity) :
      Moves su s waiting .server waiting
        { s with queue := s.queue ++ [⟨su.pid c, m⟩], server := .sending (su.pid c) todo }
  | ask (c : C) (waiting : List C) (hpc : (s.clients c).pc = .send)
      (hroom : s.queue.length < su.capacity) :
      Moves su s waiting (.client c) (waiting ++ [c])
        (({ s with queue := s.queue ++ [⟨1, su.request c⟩] } : State C).setClient c
          { s.clients c with pc := .recv (su.pid c) })
  | read (c : C) (waiting : List C) (m : Msg (List UInt8)) (rest : Queue)
      (hpc : (s.clients c).pc = .recv (su.pid c)) (hrcv : rcv (su.pid c) s.queue = some (m, rest)) :
      Moves su s waiting (.client c) waiting
        (({ s with queue := rest } : State C).setClient c ((s.clients c).received m))

variable [DecidableEq C] {a : Label C}

theorem server_moves (h : Inv su waiting s) (hstep : server su s = some s') :
    ∃ waiting', Moves su s waiting .server waiting' s' := by
  rcases h.server with hrecv | ⟨c, m, todo, hsend⟩
  · simp only [server, hrecv, Option.map_eq_some_iff] at hstep
    obtain ⟨⟨⟨type, data⟩, rest⟩, hrcv, rfl⟩ := hstep
    have htype : type = 1 := type_of_rcv hrcv
    have hreq := ofType_of_rcv hrcv
    rw [h.requests] at hreq
    cases waiting with
    | nil => cases hreq
    | cons c waiting =>
      rw [List.map_cons, List.cons.injEq] at hreq
      obtain ⟨m, todo, hreceived, hanswer⟩ := exists_received su.toClients c
      obtain ⟨hdata, -⟩ := hreq
      subst hdata htype
      simp only [hreceived]
      exact ⟨waiting, .take c waiting rest m todo hrecv hrcv hanswer⟩
  · simp only [server, hsend, if_neg (su.not_pid_le_zero c), Option.ite_none_right_eq_some, Option.some.injEq] at hstep
    obtain ⟨hroom, rfl⟩ := hstep
    exact ⟨waiting, .reply c waiting m todo hsend hroom⟩

theorem client_moves (h : Inv su waiting s) (hstep : client su c s = some s') :
    ∃ waiting', Moves su s waiting (.client c) waiting' s' := by
  have hcl := h.clients c
  unfold client at hstep
  simp only at hstep
  split at hstep <;> rename_i hpc <;> simp only [hpc, ClientOk] at hcl
  · rw [Option.ite_none_right_eq_some, Option.some.injEq] at hstep
    obtain ⟨hroom, rfl⟩ := hstep
    exact ⟨waiting ++ [c], .ask c waiting hpc hroom⟩
  · obtain ⟨rfl, -⟩ := hcl
    simp only [Option.map_eq_some_iff] at hstep
    obtain ⟨⟨m, rest⟩, hrcv, rfl⟩ := hstep
    exact ⟨waiting, .read c waiting m rest hpc hrcv⟩
  · cases hstep

theorem step_moves (h : Inv su waiting s) (hstep : step su s a = some s') :
    ∃ waiting', Moves su s waiting a waiting' s' := by
  cases a with
  | server => exact server_moves h hstep
  | client c => exact client_moves h hstep

theorem todo_of_send {d : C} (hserver : s.server = .send (su.pid c) m todo) :
    s.server.todo (su.pid d) = if d = c then m :: todo else [] := by
  rw [hserver, Server.todo]
  by_cases hdc : d = c
  · rw [hdc, if_pos rfl, if_pos rfl]
  · rw [if_neg hdc, if_neg (Ne.symm (su.pid_ne hdc))]

theorem inv_take (h : Inv su (c :: waiting) s) (hserver : s.server = .recv)
    (hrcv : rcv 1 s.queue = some (⟨1, su.request c⟩, rest)) (hanswer : su.answer c = m :: todo) :
    Inv su waiting { s with queue := rest, server := .send (su.pid c) m todo } := by
  obtain ⟨hnew, hnodup⟩ := List.nodup_cons.mp h.nodup
  have hreq := ofType_of_rcv hrcv
  rw [h.requests, List.map_cons, List.cons.injEq] at hreq
  refine ⟨hreq.2.symm, hnodup, fun m' hm' => h.typed m' (mem_of_mem_rcv hrcv hm'),
    .inr ⟨c, m, todo, rfl⟩, fun d => ?_⟩
  have hqueued := ofType_of_rcv_of_ne hrcv (su.pid_ne_one d)
  by_cases hdc : d = c
  · subst hdc
    have hcl := h.clients d
    rw [← hqueued] at hcl
    simp only [Server.todo, if_true]
    cases hpc : (s.clients d).pc <;> simp only [hpc, ClientOk] at hcl ⊢
    · exact absurd List.mem_cons_self hcl.1
    · obtain ⟨htype, ⟨-, hq, -⟩ | ⟨hnot, -⟩⟩ := hcl
      · exact ⟨htype, .inr ⟨hnew, [], by rw [hq, hanswer]; rfl, by simp⟩⟩
      · exact absurd List.mem_cons_self hnot
    · exact absurd List.mem_cons_self hcl.1
  · refine clientOk_other h (by simp [hdc]) hqueued ?_
    rw [hserver]
    exact if_neg (Ne.symm (su.pid_ne hdc))

theorem inv_reply (h : Inv su waiting s) (hserver : s.server = .send (su.pid c) m todo) :
    Inv su waiting { s with
      queue := s.queue ++ [⟨su.pid c, m⟩], server := .sending (su.pid c) todo } := by
  refine ⟨?_, h.nodup, ?_, ?_, fun d => ?_⟩
  · rw [ofType_append_of_ne (su.pid_ne_one c)]
    exact h.requests
  · simp only [List.mem_append, List.mem_singleton]
    rintro m' (hm' | rfl)
    · exact h.typed m' hm'
    · exact .inr ⟨c, rfl⟩
  · cases todo with
    | nil => exact .inl rfl
    | cons m' todo => exact .inr ⟨c, m', todo, rfl⟩
  · have htodo := todo_of_send (d := d) hserver
    by_cases hdc : d = c
    · subst hdc
      have hcl := h.clients d
      rw [htodo, if_pos rfl] at hcl
      simp only [todo_sending, if_true, ofType_append_self]
      cases hpc : (s.clients d).pc <;> simp only [hpc, ClientOk, List.append_assoc] at hcl ⊢
      · cases hcl.2.2
      · obtain ⟨htype, ⟨-, -, hnil⟩ | hread⟩ := hcl
        · cases hnil
        · exact ⟨htype, .inr hread⟩
      · exact hcl
    · refine clientOk_other h Iff.rfl (ofType_append_of_ne (Ne.symm (su.pid_ne hdc)) m) ?_
      rw [todo_sending, if_neg (Ne.symm (su.pid_ne hdc)), htodo, if_neg hdc]

/-- A client's step, from what it does to its own part of the queue. -/
theorem inv_setClient (h : Inv su waiting s) (cl : Client) {queue : Queue}
    (hrequests : ofType 1 queue = waiting'.map su.request) (hnodup : waiting'.Nodup)
    (htyped : ∀ m ∈ queue, m.type = 1 ∨ ∃ c, m.type = su.pid c)
    (hwaits : ∀ d, d ≠ c → (d ∈ waiting' ↔ d ∈ waiting))
    (hqueued : ∀ d, d ≠ c → ofType (su.pid d) queue = ofType (su.pid d) s.queue)
    (hclient : ClientOk (su.pid c) (su.answer c) (c ∈ waiting') (ofType (su.pid c) queue)
      (s.server.todo (su.pid c)) cl.pc) :
    Inv su waiting' (({ s with queue } : State C).setClient c cl) := by
  refine ⟨hrequests, hnodup, htyped, h.server, fun d => ?_⟩
  by_cases hdc : d = c
  · subst hdc
    simpa only [State.setClient, update_self] using hclient
  · simp only [State.setClient, update_of_ne hdc]
    exact clientOk_other h (hwaits d hdc) (hqueued d hdc) rfl

theorem inv_ask (h : Inv su waiting s) (hpc : (s.clients c).pc = .send) :
    Inv su (waiting ++ [c]) (({ s with queue := s.queue ++ [⟨1, su.request c⟩] } : State C).setClient c
      { s.clients c with pc := .recv (su.pid c) }) := by
  have hcl := h.clients c
  simp only [hpc, ClientOk] at hcl
  obtain ⟨hnew, hqueued, htodo⟩ := hcl
  refine inv_setClient h _ ?_ ?_ ?_ ?_ ?_ ?_
  · rw [ofType_append_self, h.requests, List.map_append]
    rfl
  · exact List.Nodup.append h.nodup (List.nodup_singleton c) (by simpa using hnew)
  · simp only [List.mem_append, List.mem_singleton]
    rintro m (hm | rfl)
    · exact h.typed m hm
    · exact .inl rfl
  · intro d hdc
    simp [hdc]
  · intro d _
    exact ofType_append_of_ne (Ne.symm (su.pid_ne_one d)) _
  · refine ⟨rfl, .inl ⟨by simp, ?_, htodo⟩⟩
    rw [ofType_append_of_ne (Ne.symm (su.pid_ne_one c)), hqueued]

theorem inv_read (h : Inv su waiting s) (hpc : (s.clients c).pc = .recv (su.pid c))
    (hrcv : rcv (su.pid c) s.queue = some (m, rest)) :
    Inv su waiting (({ s with queue := rest } : State C).setClient c ((s.clients c).received m)) := by
  have hcl := h.clients c
  simp only [hpc, ClientOk, ofType_of_rcv hrcv] at hcl
  obtain ⟨-, ⟨-, hnil, -⟩ | ⟨hnot, read, hanswer, hread⟩⟩ := hcl
  · cases hnil
  refine inv_setClient h _ ?_ h.nodup ?_ (fun _ _ => Iff.rfl) ?_ ?_
  · rw [ofType_of_rcv_of_ne hrcv (Ne.symm (su.pid_ne_one c)), h.requests]
  · exact fun m' hm' => h.typed m' (mem_of_mem_rcv hrcv hm')
  · intro d hdc
    exact ofType_of_rcv_of_ne hrcv (su.pid_ne hdc)
  · unfold Client.received
    split
    · rename_i hnil
      rw [hnil] at hanswer
      exact ⟨hnot, read, hanswer, hread⟩
    · rename_i hne
      refine ⟨type_of_rcv hrcv, .inr ⟨hnot, read ++ [m.data], by simpa using hanswer, ?_⟩⟩
      simp only [List.mem_append, List.mem_singleton]
      rintro m' (hm' | rfl)
      · exact hread m' hm'
      · exact hne

theorem inv_moves (h : Inv su waiting s) (hmove : Moves su s waiting a waiting' s') : Inv su waiting' s' := by
  cases hmove with
  | take c _ rest m todo hserver hrcv hanswer => exact inv_take h hserver hrcv hanswer
  | reply c _ m todo hserver _ => exact inv_reply h hserver
  | ask c _ hpc _ => exact inv_ask h hpc
  | read c _ m rest hpc hrcv => exact inv_read h hpc hrcv

theorem exists_inv (hr : (lts su).Reachable Lts.anyStep s) : ∃ waiting, Inv su waiting s := by
  induction hr with
  | init => exact ⟨[], inv_init su⟩
  | step _ _ hstep ih =>
    obtain ⟨waiting, h⟩ := ih
    obtain ⟨waiting', hmove⟩ := step_moves h hstep
    exact ⟨waiting', inv_moves h hmove⟩

end

-- ---------------------------------------------------------------------------
-- Who takes up how much of the queue
-- ---------------------------------------------------------------------------

section
variable {su : Setup C} {s s' : State C} {waiting : List C} {c : C}

/-- What a client that is done has left, in the queue and in the server. -/
theorem unread_of_done (h : Inv su waiting s) (hpc : (s.clients c).pc = .done) :
    c ∉ waiting ∧ (ofType (su.pid c) s.queue).length + (s.server.todo (su.pid c)).length = su.unread c := by
  have hcl := h.clients c
  simp only [hpc, ClientOk] at hcl
  obtain ⟨hnot, read, hanswer, hread⟩ := hcl
  have hall : ∀ m ∈ read, decide (m ≠ []) = true := by simpa using hread
  refine ⟨hnot, ?_⟩
  rw [Setup.unread, hanswer, List.dropWhile_append_of_pos hall, List.dropWhile_cons_of_neg (by simp),
    List.tail_cons, List.length_append]

/-- A client that is served has sent. -/
theorem ne_send_of_todo (h : Inv su waiting s) (htodo : s.server.todo (su.pid c) ≠ []) :
    (s.clients c).pc ≠ .send := by
  intro hpc
  have hcl := h.clients c
  simp only [hpc, ClientOk] at hcl
  exact htodo hcl.2.2

theorem recv_of_waiting (h : Inv su waiting s) (hc : c ∈ waiting) :
    (s.clients c).pc = .recv (su.pid c) ∧ ofType (su.pid c) s.queue = [] ∧
      s.server.todo (su.pid c) = [] := by
  have hcl := h.clients c
  cases hpc : (s.clients c).pc <;> simp only [hpc, ClientOk] at hcl
  · exact absurd hc hcl.1
  · obtain ⟨rfl, ⟨-, hrest⟩ | ⟨hnot, -⟩⟩ := hcl
    · exact ⟨rfl, hrest⟩
    · exact absurd hc hnot
  · exact absurd hc hcl.1

/-- A client that has sent and whose request is off the queue has an empty reply coming. -/
theorem todo_ne_nil (h : Inv su waiting s) (hpc : (s.clients c).pc = .recv t)
    (hq : ofType (su.pid c) s.queue = []) (hnot : c ∉ waiting) : s.server.todo (su.pid c) ≠ [] := by
  intro htodo
  have hcl := h.clients c
  simp only [hpc, ClientOk, hq, htodo] at hcl
  obtain ⟨-, ⟨hwait, -⟩ | ⟨-, read, hanswer, hread⟩⟩ := hcl
  · exact hnot hwait
  · have hmem : [] ∈ su.answer c := nil_mem_answer _ _ _
    rw [hanswer] at hmem
    exact hread [] (by simpa using hmem) rfl

variable [DecidableEq C]

/-- The client's request and its replies in the queue. -/
def load (su : Setup C) (waiting : List C) (s : State C) (c : C) : Nat :=
  (if c ∈ waiting then 1 else 0) + (ofType (su.pid c) s.queue).length

theorem length_queue [Fintype C] (h : Inv su waiting s) : s.queue.length = ∑ c, load su waiting s c := by
  have hinj : Injective fun o : Option C => o.elim (1 : Int) fun c => su.pid c := by
    intro o o' heq
    cases o with
    | none =>
      cases o' with
      | none => rfl
      | some c => exact absurd heq.symm (su.pid_ne_one c)
    | some c =>
      cases o' with
      | none => exact absurd heq (su.pid_ne_one c)
      | some d => rw [su.pid_injective (Int.ofNat.inj heq)]
  have hlen := length_eq_sum (q := s.queue) hinj fun m hm => by
    rcases h.typed m hm with hone | ⟨c, hc⟩
    · exact ⟨none, hone⟩
    · exact ⟨some c, hc⟩
  have hwaiting : waiting.length = ∑ c : C, if c ∈ waiting then 1 else 0 := by
    rw [← List.toFinset_card_of_nodup h.nodup, ← Finset.card_filter]
    congr 1
    ext c
    simp
  rw [hlen, Fintype.sum_option]
  simp only [Option.elim_none, Option.elim_some, h.requests, List.length_map, load,
    Finset.sum_add_distrib, hwaiting]

/-- A sender that cannot move finds the queue full. -/
theorem server_room (hserver : s.server = .send (su.pid c) m todo) (hnone : step su s .server = none) :
    su.capacity ≤ s.queue.length := by
  simp only [step, server, hserver, if_neg (su.not_pid_le_zero c)] at hnone
  by_contra hlt
  rw [if_pos (Nat.lt_of_not_le hlt)] at hnone
  cases hnone

theorem client_room (hpc : (s.clients c).pc = .send) (hnone : step su s (.client c) = none) :
    su.capacity ≤ s.queue.length := by
  simp only [step, client, hpc] at hnone
  by_contra hlt
  rw [if_pos (Nat.lt_of_not_le hlt)] at hnone
  cases hnone

theorem waiting_of_server (h : Inv su waiting s) (hserver : s.server = .recv)
    (hnone : step su s .server = none) : waiting = [] := by
  simp only [step, server, hserver, Option.map_eq_none_iff] at hnone
  have hreq := rcv_eq_none_iff.mp hnone
  rw [h.requests] at hreq
  exact List.map_eq_nil_iff.mp hreq

/-- A client that cannot move has none of its replies in the queue. -/
theorem queued_of_stuck (h : Inv su waiting s) (hstuck : ∀ a, step su s a = none)
    (hpc : (s.clients c).pc ≠ .done) : ofType (su.pid c) s.queue = [] := by
  have hcl := h.clients c
  cases hp : (s.clients c).pc with
  | send =>
    simp only [hp, ClientOk] at hcl
    exact hcl.2.1
  | recv mesg_type =>
    simp only [hp, ClientOk] at hcl
    have hnone := hstuck (.client c)
    simp only [step, client, hp, hcl.1, Option.map_eq_none_iff] at hnone
    exact rcv_eq_none_iff.mp hnone
  | done => exact absurd hp hpc

theorem load_le_weight (h : Inv su waiting s) (hstuck : ∀ a, step su s a = none) (c : C) :
    load su waiting s c ≤ su.weight c := by
  by_cases hpc : (s.clients c).pc = .done
  · obtain ⟨hnot, hlen⟩ := unread_of_done h hpc
    rw [load, if_neg hnot, Setup.weight]
    omega
  · rw [load, queued_of_stuck h hstuck hpc, Setup.weight]
    split <;> simp

variable [Fintype C] {k u : C}

/-- One client takes up nothing, and the others do not fill the queue. -/
theorem length_lt_of_idle (h : Inv su waiting s) (hfits : Fits su) (hstuck : ∀ a, step su s a = none)
    (hload : load su waiting s k = 0) : s.queue.length < su.capacity := by
  calc s.queue.length
      = ∑ c, load su waiting s c := length_queue h
    _ = load su waiting s k + ∑ c ∈ Finset.univ.erase k, load su waiting s c :=
        (Finset.add_sum_erase _ _ (Finset.mem_univ k)).symm
    _ ≤ ∑ c ∈ Finset.univ.erase k, su.weight c := by
        rw [hload, Nat.zero_add]
        exact Finset.sum_le_sum fun c _ => load_le_weight h hstuck c
    _ < su.capacity := hfits k

/-- What the server still has for a client that is done makes up for the
request of another. -/
theorem length_lt_of_done (h : Inv su waiting s) (hfits : Fits su) (hstuck : ∀ a, step su s a = none)
    (hk : (s.clients k).pc = .done) (htodo : s.server.todo (su.pid k) ≠ [])
    (hu : (s.clients u).pc ≠ .done) : s.queue.length < su.capacity := by
  obtain ⟨hnot, hunread⟩ := unread_of_done h hk
  have hpos := List.length_pos_iff.mpr htodo
  have hne : k ≠ u := by
    rintro rfl
    exact hu hk
  have hload : load su waiting s u ≤ 1 := by
    rw [load, queued_of_stuck h hstuck hu]
    split <;> simp
  have hlt : load su waiting s k < su.weight k := by
    rw [load, if_neg hnot, Setup.weight]
    omega
  have hsum : ∑ c ∈ Finset.univ.erase u, load su waiting s c < ∑ c ∈ Finset.univ.erase u, su.weight c :=
    Finset.sum_lt_sum (fun c _ => load_le_weight h hstuck c)
      ⟨k, Finset.mem_erase.mpr ⟨hne, Finset.mem_univ k⟩, hlt⟩
  have hcap := hfits u
  rw [length_queue h, ← Finset.add_sum_erase _ _ (Finset.mem_univ u)]
  omega

theorem no_deadlock_of_fits (h : Inv su waiting s) (hfits : Fits su) : ¬ Deadlock su s := by
  rintro ⟨⟨u, hu⟩, hstuck⟩
  rcases h.server with hrecv | ⟨k, m, todo, hsend⟩
  · have hwaiting := waiting_of_server h hrecv (hstuck .server)
    subst hwaiting
    have hqueued := queued_of_stuck h hstuck hu
    cases hpc : (s.clients u).pc with
    | send =>
      have hlt := length_lt_of_idle h hfits hstuck (k := u) (by simp [load, hqueued])
      exact Nat.not_lt.mpr (client_room hpc (hstuck (.client u))) hlt
    | recv t =>
      refine todo_ne_nil h hpc hqueued (by simp) ?_
      rw [hrecv]
      rfl
    | done => exact hu hpc
  · have hroom := server_room hsend (hstuck .server)
    have htodo : s.server.todo (su.pid k) ≠ [] := by
      rw [todo_of_send hsend, if_pos rfl]
      exact List.cons_ne_nil m todo
    refine Nat.not_lt.mpr hroom ?_
    by_cases hk : (s.clients k).pc = .done
    · exact length_lt_of_done h hfits hstuck hk htodo hu
    · refine length_lt_of_idle h hfits hstuck (k := k) ?_
      have hnot : k ∉ waiting := fun hmem => htodo (recv_of_waiting h hmem).2.2
      rw [load, if_neg hnot, queued_of_stuck h hstuck hk]
      rfl

end

end DdsAuto.Svmsgmpx1q.SingleQueue
