import DdsAuto.Lib.Lts
import DdsAuto.Svmsgmpx1q.Processes

/-!
# The two main programs

`server_main` creates the queue of `MQ_KEY1` and answers on it; `client_main`
writes to that queue, but reads from the queue of `MQ_KEY2`, which nobody
creates and nobody writes to. `served_iff`: the programs keep what one expects
of them only where there is no client, or where the queue of `MQ_KEY2` is not
there and no client has anything to write.
-/

namespace DdsAuto.Svmsgmpx1q.Mains

open Function MsgQueue Svmsg

/-- `MQ_KEY1` and `MQ_KEY2`. -/
inductive Key
  | key1
  | key2
  deriving DecidableEq, Repr

/-- The ids of the keys' queues, and the queues by id; `next` is the id of the
next queue created. -/
structure Kernel where
  ids : Key → Option Nat
  queues : Nat → Option Queue
  next : Nat

namespace Kernel

/-- `msgget(key, IPC_CREAT)`. -/
def create (k : Kernel) (key : Key) : Nat × Kernel :=
  match k.ids key with
  | some id => (id, k)
  | none => (k.next, {
      ids := update k.ids key (some k.next)
      queues := update k.queues k.next (some [])
      next := k.next + 1 })

/-- `msgctl(id, IPC_RMID, NULL)`, of a queue that exists. -/
def remove (k : Kernel) (id : Nat) : Kernel :=
  { k with
    ids := fun key => if k.ids key = some id then none else k.ids key
    queues := update k.queues id none }

def store (k : Kernel) (id : Nat) (q : Queue) : Kernel :=
  { k with queues := update k.queues id (some q) }

variable {k : Kernel} {key key' : Key} {id : Nat} {q : Queue}

theorem create_ids_of_ne (h : key' ≠ key) : (k.create key).2.ids key' = k.ids key' := by
  unfold create
  split
  · rfl
  · exact update_of_ne h ..

theorem create_queues (hq : (k.create key).2.queues id = some q) : k.queues id = some q ∨ q = [] := by
  unfold create at hq
  split at hq
  · exact .inl hq
  · by_cases hid : id = k.next
    · simp only [hid, update_self, Option.some.injEq] at hq
      exact .inr hq.symm
    · simp only [update_of_ne hid] at hq
      exact .inl hq

end Kernel

/-- The clients, and which of the two queues exist when the programs are started. -/
structure Setup (C : Type) extends Clients C where
  key1 : Bool
  key2 : Bool

inductive ServerMain
  | msgget
  | server (msqid : Nat) (pc : Server)
  deriving DecidableEq, Repr

/-- `client` is inside the function of that name; every failing call ends in `exited`. -/
inductive ClientMain
  | getWrite
  | getRead (writeid : Nat)
  | client (readid writeid : Nat)
  | rmRead (readid writeid : Nat)
  | rmWrite (writeid : Nat)
  | exited
  deriving DecidableEq, Repr

/-- `finished` are the pids to which the server has sent its last, empty reply. -/
structure State (C : Type) where
  kernel : Kernel
  server : ServerMain
  finished : List Int
  mains : C → ClientMain
  clients : C → Client

variable {C : Type}

def State.init (su : Setup C) : State C where
  kernel := {
    ids := fun
      | .key1 => if su.key1 then some 0 else none
      | .key2 => if su.key2 then some 1 else none
    queues := fun id =>
      if id = 0 ∧ su.key1 ∨ id = 1 ∧ su.key2 then some [] else none
    next := 2 }
  server := .msgget
  finished := []
  mains := fun _ => .getWrite
  clients := fun _ => ⟨.send, []⟩

-- ---------------------------------------------------------------------------
-- server_main.cpp
-- ---------------------------------------------------------------------------

/-- `server(msqid, msqid)` between two calls of the kernel. -/
def serverCall (su : Setup C) (msqid : Nat) (s : State C) (q : Queue) : Server → Option (State C)
  | .recv => (rcv 1 q).map fun (m, rest) =>
      { s with
        kernel := s.kernel.store msqid rest
        server := .server msqid (.received su.fopen m.data) }
  | .send mesg_type m todo =>
    if mesg_type ≤ 0 then some { s with server := .server msqid .exited }
    else some { s with
      kernel := s.kernel.store msqid (q ++ [⟨mesg_type, m⟩])
      server := .server msqid (.sending mesg_type todo)
      finished := if todo = [] then s.finished ++ [mesg_type] else s.finished }
  | .exited => none

def serverMain (su : Setup C) (s : State C) : Option (State C) :=
  match s.server with
  | .msgget =>
    let (msqid, kernel) := s.kernel.create .key1
    some { s with kernel, server := .server msqid .recv }
  | .server _ .exited => none
  | .server msqid pc =>
    match s.kernel.queues msqid with
    | none => some { s with server := .server msqid .exited }
    | some q => serverCall su msqid s q pc

-- ---------------------------------------------------------------------------
-- client_main.cpp
-- ---------------------------------------------------------------------------

section
variable [DecidableEq C]

def State.setMain (s : State C) (c : C) (m : ClientMain) : State C :=
  { s with mains := update s.mains c m }

def State.setClient (s : State C) (c : C) (cl : Client) : State C :=
  { s with clients := update s.clients c cl }

/-- `client(readid, writeid)`: its next call. -/
def clientCall (su : Setup C) (c : C) (readid writeid : Nat) (s : State C) : Option (State C) :=
  let cl := s.clients c
  match cl.pc with
  | .send =>
    match s.kernel.queues writeid with
    | none => some (s.setMain c .exited)
    | some q =>
      let m : Msg (List UInt8) := ⟨1, su.request c⟩
      some (({ s with kernel := s.kernel.store writeid (q ++ [m]) }).setClient c
        { cl with pc := .recv (su.pid c) })
  | .recv mesg_type =>
    match s.kernel.queues readid with
    | none => some (s.setMain c .exited)
    | some q => (rcv mesg_type q).map fun (m, rest) =>
        let s := ({ s with kernel := s.kernel.store readid rest }).setClient c (cl.received m)
        if m.data = [] then s.setMain c (.rmRead readid writeid) else s
  | .done => none

/-- A queue that is gone cannot be removed again. -/
def removeCall (c : C) (id : Nat) (next : ClientMain) (s : State C) : State C :=
  match s.kernel.queues id with
  | none => s.setMain c .exited
  | some _ => ({ s with kernel := s.kernel.remove id }).setMain c next

def clientMain (su : Setup C) (c : C) (s : State C) : Option (State C) :=
  match s.mains c with
  | .getWrite =>
    match s.kernel.ids .key1 with
    | none => some (s.setMain c .exited)
    | some writeid => some (s.setMain c (.getRead writeid))
  | .getRead writeid =>
    match s.kernel.ids .key2 with
    | none => some (s.setMain c .exited)
    | some readid => some (s.setMain c (.client readid writeid))
  | .client readid writeid => clientCall su c readid writeid s
  | .rmRead readid writeid => some (removeCall c readid (.rmWrite writeid) s)
  | .rmWrite writeid => some (removeCall c writeid .exited s)
  | .exited => none

inductive Label (C : Type)
  | server
  | client (c : C)

def step (su : Setup C) (s : State C) : Label C → Option (State C)
  | .server => serverMain su s
  | .client c => clientMain su c s

def lts (su : Setup C) : Lts (State C) (Label C) := ⟨State.init su, step su⟩

end

-- ---------------------------------------------------------------------------
-- What one expects
-- ---------------------------------------------------------------------------

/-- The answer is read and written by the client, or on the queue it reads; its
loop has not seen an empty message while it is in `client`. -/
def Delivered (su : Setup C) (s : State C) (c : C) : Prop :=
  match s.mains c with
  | .client readid _ => ∃ read q, s.kernel.queues readid = some q ∧
      su.answer c = read ++ ofType (su.pid c) q ∧ (∀ m ∈ read, m ≠ []) ∧
      (s.clients c).output = read.flatten
  | _ => (s.clients c).output = written (su.answer c)

/-- The process holds the id for a conversation that is not over. -/
def ClientMain.Uses (id : Nat) : ClientMain → Prop
  | .getRead writeid => id = writeid
  | .client readid writeid => id = readid ∨ id = writeid
  | _ => False

def ServerMain.Uses (id : Nat) : ServerMain → Prop
  | .server _ .exited => False
  | .server msqid _ => id = msqid
  | .msgget => False

/-- The process removes the queue in its next step. -/
def ClientMain.Removes (id : Nat) : ClientMain → Prop
  | .rmRead readid _ => id = readid
  | .rmWrite writeid => id = writeid
  | _ => False

structure Served (su : Setup C) (s : State C) : Prop where
  delivered : ∀ c, (su.pid c : Int) ∈ s.finished → Delivered su s c
  output : ∀ c, (s.clients c).output <+: written (su.answer c)
  ended : ∀ c, s.mains c = .exited → (s.clients c).output = written (su.answer c)
  removal : ∀ c id, (s.mains c).Removes id →
    ¬ s.server.Uses id ∧ ∀ d, d ≠ c → ¬ (s.mains d).Uses id

variable {su : Setup C} {s s' : State C} {c : C}

-- ---------------------------------------------------------------------------
-- Without the queue of MQ_KEY2
-- ---------------------------------------------------------------------------

/-- No client gets as far as its conversation. -/
structure Quiet (s : State C) : Prop where
  absent : s.kernel.ids .key2 = none
  empty : ∀ id q, s.kernel.queues id = some q → q = []
  server : s.server = .msgget ∨ ∃ id, s.server = .server id .recv ∨ s.server = .server id .exited
  finished : s.finished = []
  mains : ∀ c, s.mains c = .getWrite ∨ (∃ w, s.mains c = .getRead w) ∨ s.mains c = .exited
  output : ∀ c, (s.clients c).output = []

theorem quiet_init (hkey : su.key2 = false) : Quiet (State.init su) where
  absent := by simp [State.init, hkey]
  empty := fun id q h => by
    simp only [State.init, Option.ite_none_right_eq_some, Option.some.injEq] at h
    exact h.2.symm
  server := .inl rfl
  finished := rfl
  mains := fun _ => .inl rfl
  output := fun _ => rfl

theorem quiet_server (h : Quiet s) (hstep : serverMain su s = some s') : Quiet s' := by
  rcases h.server with hs | ⟨id, hs | hs⟩ <;> simp only [serverMain, hs] at hstep
  · cases hstep
    refine ⟨(Kernel.create_ids_of_ne (by simp)).trans h.absent, fun id q hq => ?_, .inr ⟨_, .inl rfl⟩,
      h.finished, h.mains, h.output⟩
    exact (Kernel.create_queues hq).elim (h.empty id q) fun hnil => hnil
  · split at hstep
    · cases hstep
      exact ⟨h.absent, h.empty, .inr ⟨_, .inr rfl⟩, h.finished, h.mains, h.output⟩
    · rename_i q hq
      rw [h.empty id q hq] at hstep
      cases hstep
  · cases hstep

variable [DecidableEq C]

theorem quiet_setMain (h : Quiet s) (c : C) {m : ClientMain}
    (hm : m = .getWrite ∨ (∃ w, m = .getRead w) ∨ m = .exited) : Quiet (s.setMain c m) := by
  refine ⟨h.absent, h.empty, h.server, h.finished, ?_, h.output⟩
  exact (forall_update_iff s.mains fun _ m => m = .getWrite ∨ (∃ w, m = .getRead w) ∨ m = .exited).mpr
    ⟨hm, fun d _ => h.mains d⟩

theorem quiet_client (h : Quiet s) (hstep : clientMain su c s = some s') : Quiet s' := by
  rcases h.mains c with hm | ⟨w, hm⟩ | hm <;> simp only [clientMain, hm] at hstep
  · split at hstep <;> cases hstep
    · exact quiet_setMain h c (.inr (.inr rfl))
    · exact quiet_setMain h c (.inr (.inl ⟨_, rfl⟩))
  · rw [h.absent] at hstep
    cases hstep
    exact quiet_setMain h c (.inr (.inr rfl))
  · cases hstep

theorem quiet_of_reachable (hkey : su.key2 = false) (hr : (lts su).Reachable Lts.anyStep s) : Quiet s := by
  refine hr.invariant (quiet_init hkey) fun s a s' h _ hstep => ?_
  cases a with
  | server => exact quiet_server h hstep
  | client c => exact quiet_client h hstep

theorem served_of_absent (hexpect : ∀ c, su.key2 = false ∧ written (su.answer c) = [])
    (hr : (lts su).Reachable Lts.anyStep s) : Served su s := by
  have hquiet (c : C) : Quiet s := quiet_of_reachable (hexpect c).1 hr
  refine ⟨fun c hmem => ?_, fun c => ?_, fun c _ => ?_, fun c id hrem => ?_⟩
  · rw [(hquiet c).finished] at hmem
    cases hmem
  · rw [(hquiet c).output c]
    exact List.nil_prefix
  · rw [(hquiet c).output c, (hexpect c).2]
  · rcases (hquiet c).mains c with hm | ⟨w, hm⟩ | hm <;> rw [hm] at hrem <;> cases hrem

-- ---------------------------------------------------------------------------
-- With a client that expects something
-- ---------------------------------------------------------------------------

/-- The server has its queue, and nobody else has done anything. -/
structure Started (su : Setup C) (a : Nat) (s : State C) : Prop where
  server : s.server = .server a .recv
  key1 : s.kernel.ids .key1 = some a
  key2 : s.kernel.ids .key2 = if su.key2 then some 1 else none
  queue : s.kernel.queues a = some []
  other : su.key2 = true → s.kernel.queues 1 = some []
  ne : a ≠ 1
  mains : ∀ c, s.mains c = .getWrite
  clients : ∀ c, s.clients c = ⟨.send, []⟩

theorem reachable_step {a : Label C} (hr : (lts su).Reachable Lts.anyStep s)
    (hstep : step su s a = some s') : (lts su).Reachable Lts.anyStep s' :=
  hr.step (a := a) trivial hstep

theorem exists_started (su : Setup C) : ∃ a s, (lts su).Reachable Lts.anyStep s ∧ Started su a s := by
  cases h1 : su.key1 with
  | false =>
    refine ⟨2, _, .step .init (a := .server) trivial rfl, ?_⟩
    constructor <;> simp [lts, State.init, h1]
  | true =>
    refine ⟨0, _, .step .init (a := .server) trivial rfl, ?_⟩
    constructor <;> simp [lts, State.init, h1]

/-- The client's two calls of `Msgget`. -/
theorem exists_opened (su : Setup C) (c : C) : ∃ a s, (lts su).Reachable Lts.anyStep s ∧ Started su a s ∧
    (lts su).Reachable Lts.anyStep
      ((s.setMain c (.getRead a)).setMain c (if su.key2 then .client 1 a else .exited)) := by
  obtain ⟨a, s, hr, hs⟩ := exists_started su
  have hwrite : step su s (.client c) = some (s.setMain c (.getRead a)) := by
    simp [step, clientMain, hs.mains c, hs.key1]
  have hread : step su (s.setMain c (.getRead a)) (.client c) =
      some ((s.setMain c (.getRead a)).setMain c (if su.key2 then .client 1 a else .exited)) := by
    cases hkey : su.key2 <;> simp [step, clientMain, State.setMain, hs.key2, hkey]
  exact ⟨a, s, hr, hs, reachable_step (reachable_step hr hwrite) hread⟩

/-- Without the queue of `MQ_KEY2` the client ends, with nothing written. -/
theorem written_of_served (hserved : ∀ s, (lts su).Reachable Lts.anyStep s → Served su s)
    (hkey : su.key2 = false) (c : C) : written (su.answer c) = [] := by
  obtain ⟨a, s, -, hs, hr⟩ := exists_opened su c
  have hended := (hserved _ hr).ended c (by simp [State.setMain, hkey])
  rw [← hended]
  exact congrArg Client.output (hs.clients c)

theorem exists_finished (hr : (lts su).Reachable Lts.anyStep s) (hs : s.server = .server a (.send t m todo))
    (ht : 0 < t) (hq : s.kernel.queues a = some q) :
    ∃ s', (lts su).Reachable Lts.anyStep s' ∧ t ∈ s'.finished ∧ s'.mains = s.mains ∧
      ∀ id, id ≠ a → s'.kernel.queues id = s.kernel.queues id := by
  induction todo generalizing s m q with
  | nil =>
    have hstep : step su s .server = some { s with
        kernel := s.kernel.store a (q ++ [⟨t, m⟩]), server := .server a .recv
        finished := s.finished ++ [t] } := by
      simp [step, serverMain, hs, hq, serverCall, Int.not_le.mpr ht, Server.sending]
    refine ⟨_, reachable_step hr hstep, by simp, rfl, fun id hid => ?_⟩
    exact update_of_ne hid ..
  | cons m' todo ih =>
    have hstep : step su s .server = some { s with
        kernel := s.kernel.store a (q ++ [⟨t, m⟩]), server := .server a (.send t m' todo) } := by
      simp [step, serverMain, hs, hq, serverCall, Int.not_le.mpr ht, Server.sending]
    obtain ⟨s', hr', hfin, hmains, hqueues⟩ := ih (reachable_step hr hstep) rfl (update_self ..)
    refine ⟨s', hr', hfin, hmains, fun id hid => (hqueues id hid).trans ?_⟩
    exact update_of_ne hid ..

/-- With it the client waits there, and its answer is on the other queue. -/
theorem not_served_of_key2 (hkey : su.key2 = true) (c : C) :
    ∃ s, (lts su).Reachable Lts.anyStep s ∧ ¬ Delivered su s c ∧ (su.pid c : Int) ∈ s.finished := by
  obtain ⟨a, s, -, hs, hr⟩ := exists_opened su c
  rw [if_pos hkey] at hr
  obtain ⟨m, todo, hreceived, -⟩ := exists_received su.toClients c
  have hask := hr.step (a := .client c) trivial (by
    simp [lts, step, clientMain, State.setMain, clientCall, hs.clients, hs.queue]
    rfl)
  have hserve := hask.step (a := .server) trivial (by
    simp [lts, step, serverMain, State.setClient, hs.server, Kernel.store, serverCall, rcv, hreceived]
    rfl)
  obtain ⟨s', hr', hfin, hmains, hqueues⟩ := exists_finished hserve rfl
    (Int.natCast_pos.mpr (Nat.lt_trans Nat.one_pos (su.one_lt_pid c))) (update_self ..)
  have hmain : s'.mains c = .client 1 a := by
    rw [hmains]
    exact update_self ..
  have hempty : s'.kernel.queues 1 = some [] := by
    rw [hqueues 1 (Ne.symm hs.ne)]
    simp [update_of_ne (Ne.symm hs.ne), hs.other hkey]
  refine ⟨s', hr', fun hdel => ?_, hfin⟩
  simp only [Delivered, hmain, hempty, Option.some.injEq] at hdel
  obtain ⟨read, q, rfl, hanswer, hread, -⟩ := hdel
  have hmem : [] ∈ su.answer c := nil_mem_answer _ _ _
  rw [hanswer] at hmem
  exact hread [] (by simpa using hmem) rfl

theorem served_iff (su : Setup C) : (∀ s, (lts su).Reachable Lts.anyStep s → Served su s) ↔
    ∀ c, su.key2 = false ∧ written (su.answer c) = [] := by
  constructor
  · intro hserved c
    cases hkey : su.key2 with
    | false => exact ⟨rfl, written_of_served hserved hkey c⟩
    | true =>
      obtain ⟨s, hr, hnot, hfin⟩ := not_served_of_key2 hkey c
      exact absurd ((hserved s hr).delivered c hfin) hnot
  · intro hexpect s hr
    exact served_of_absent hexpect hr

/-- One client, and no queue when the programs are started. -/
def alone : Setup (Fin 1) where
  pid := fun _ => 2
  stdin := fun _ => [97, 10]
  fopen := fun _ _ => .ok [98]
  one_lt_pid := fun _ => Nat.lt_succ_self 1
  pid_lt := fun _ => by decide
  pid_injective := fun _ _ _ => Fin.ext (by omega)
  key1 := false
  key2 := false

/-- The server is there, and still the client ends with an error. -/
theorem alone_not_served : ∃ s, (lts alone).Reachable Lts.anyStep s ∧ s.server = .server 2 .recv ∧
    s.mains 0 = .exited ∧ ¬ Served alone s := by
  obtain ⟨s, hr, hs⟩ := Lts.reachable_of_exec (lts alone) [.server, .client 0, .client 0]
    (fun s => s.server = .server 2 .recv ∧ s.mains 0 = .exited ∧ (s.clients 0).output = [] ∧
      written (alone.answer 0) = [98]) (by decide +kernel)
  simp only [decide_eq_true_eq] at hs
  obtain ⟨hserver, hmain, houtput, hexpect⟩ := hs
  refine ⟨s, hr, hserver, hmain, fun hserved => ?_⟩
  have hended := hserved.ended 0 hmain
  rw [houtput, hexpect] at hended
  cases hended

end DdsAuto.Svmsgmpx1q.Mains
