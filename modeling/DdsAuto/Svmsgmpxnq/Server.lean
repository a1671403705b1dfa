import DdsAuto.Lib.Lts
import DdsAuto.Lib.MsgQueue
import DdsAuto.Svmsg.Request

/-!
# A child for each request, a queue for each client

`svmsgmpxnq`: requests come on the queue of `MQ_KEY1`; the parent forks a child
for each, and the child writes to the private queue of the client that asked.
A queue holds a given number of messages; `arrived` records what has ever come
to a private queue.

`sig_chld` reaps the children that have ended. Its last `waitpid` sets `errno`
to `ECHILD` when no child is left, and the handler does not put `errno` back:
between a `msgrcv` that a signal has interrupted and the test of `errno` in
`Mesg_recv`, that ends the server.
-/

namespace DdsAuto.Svmsgmpxnq

open Function MsgQueue Svmsg CString

abbrev Queue := List (Msg (List UInt8))

/-- The clients' queues and inputs, what `fopen` gives for each client's
request, and how many messages the queues hold. -/
structure Setup (C : Type) where
  msqid : C → Nat
  stdin : C → List UInt8
  fopen : Int → Fopen
  capacity : Int → Nat
  wellKnownCapacity : Nat
  msqid_lt : ∀ c, msqid c < 2147483648
  msqid_injective : Injective msqid
  capacity_pos : ∀ id, 0 < capacity id
  wellKnown_pos : 0 < wellKnownCapacity

inductive Errno
  | eintr
  | echild
  | other
  deriving DecidableEq, Repr

/-- `interrupted`: `msgrcv` has returned -1 and `errno` is not tested yet. -/
inductive Parent
  | recv
  | interrupted
  | fork (writeid : Int) (n : Nat) (ptr : List UInt8)
  | exited
  deriving DecidableEq, Repr

inductive Life
  | running
  | exited
  | reaped
  deriving DecidableEq, Repr

/-- A child and the messages it has still to send. -/
structure Child where
  writeid : Int
  todo : List (List UInt8)
  life : Life
  deriving DecidableEq, Repr

/-- `recv` carries the `mesg_type` that `msgrcv` is asked for. -/
inductive ClientPc
  | msgget
  | send
  | recv (mesg_type : Int)
  | rmid
  | exited
  deriving DecidableEq, Repr

structure Client where
  pc : ClientPc
  output : List UInt8
  deriving DecidableEq, Repr

structure State (C : Type) where
  parent : Parent
  errno : Errno
  sigchld : Bool
  wellKnown : Queue
  children : List Child
  queues : Int → Option Queue
  arrived : Int → List (List UInt8)
  clients : C → Client

variable {C : Type}

/-- The server waits for requests; no client has started. -/
def State.init : State C where
  parent := .recv
  errno := .other
  sigchld := false
  wellKnown := []
  children := []
  queues := fun _ => none
  arrived := fun _ => []
  clients := fun _ => ⟨.msgget, []⟩

-- ---------------------------------------------------------------------------
-- server.h
-- ---------------------------------------------------------------------------

/-- What the parent does with a message of type 1. -/
def Parent.received (data : List UInt8) : Parent :=
  match parse data with
  | .error _ => .recv
  | .ok (msqid, ptr) => .fork (atoi msqid) data.length ptr

def parent (su : Setup C) (s : State C) : Option (State C) :=
  match s.parent with
  | .recv => (rcv 1 s.wellKnown).map fun (m, rest) =>
      { s with wellKnown := rest, parent := .received m.data }
  | .interrupted => some { s with parent := if s.errno = .eintr then .recv else .exited }
  | .fork writeid n ptr =>
    some { s with
      parent := .recv
      children := s.children ++ [⟨writeid, replies (su.fopen writeid) n ptr, .running⟩] }
  | .exited => none

def Child.reap (ch : Child) : Child :=
  if ch.life = .exited then { ch with life := .reaped } else ch

/-- `errno` after the loop of `waitpid`. -/
def errnoAfter (children : List Child) (errno : Errno) : Errno :=
  if ∃ ch ∈ children, ch.life = .running then errno else .echild

/-- `sig_chld`, in a `msgrcv` that waits or outside. After an interrupted call
`errno` is set when the handler has returned. -/
def sigChld (inside : Bool) (s : State C) : Option (State C) :=
  if s.sigchld then
    let children := s.children.map Child.reap
    match inside, s.parent with
    | true, .recv =>
      if rcv 1 s.wellKnown = none then
        some { s with children, sigchld := false, parent := .interrupted, errno := .eintr }
      else none
    | true, _ => none
    | false, .exited => none
    | false, _ => some { s with children, sigchld := false, errno := errnoAfter children s.errno }
  else none

/-- A child ends, and the parent gets `SIGCHLD`. -/
def State.exitChild (s : State C) (i : Nat) (ch : Child) : State C :=
  { s with children := s.children.set i { ch with life := .exited }, sigchld := true }

/-- The child's next `Mesg_send`, of type 1 as the request was; without a queue
to write to it is an error and the child ends. -/
def child (su : Setup C) (i : Nat) (s : State C) : Option (State C) :=
  match s.children[i]? with
  | none => none
  | some ch =>
    match ch.life, ch.todo with
    | .running, m :: todo =>
      match s.queues ch.writeid with
      | none => some (s.exitChild i ch)
      | some q =>
        if q.length < su.capacity ch.writeid then
          some { s with
            queues := update s.queues ch.writeid (some (q ++ [⟨1, m⟩]))
            arrived := update s.arrived ch.writeid (s.arrived ch.writeid ++ [m])
            children := s.children.set i { ch with todo } }
        else none
    | .running, [] => some (s.exitChild i ch)
    | _, _ => none

-- ---------------------------------------------------------------------------
-- client.h and client_main.cpp
-- ---------------------------------------------------------------------------

variable [DecidableEq C]

def State.setClient (s : State C) (c : C) (cl : Client) : State C :=
  { s with clients := update s.clients c cl }

def client (su : Setup C) (c : C) (s : State C) : Option (State C) :=
  let id : Int := su.msqid c
  let cl := s.clients c
  match cl.pc with
  | .msgget =>
    some (({ s with queues := update s.queues id (some []) }).setClient c { cl with pc := .send })
  | .send =>
    if s.wellKnown.length < su.wellKnownCapacity then
      let m : Msg (List UInt8) := ⟨1, request (su.msqid c) (su.stdin c)⟩
      some (({ s with wellKnown := s.wellKnown ++ [m] }).setClient c { cl with pc := .recv m.type })
    else none
  | .recv mesg_type =>
    match s.queues id with
    | none => some (s.setClient c { cl with pc := .exited })
    | some q => (rcv mesg_type q).map fun (m, rest) =>
        ({ s with queues := update s.queues id (some rest) }).setClient c
          (if m.data = [] then { cl with pc := .rmid }
           else { pc := .recv m.type, output := cl.output ++ m.data })
  | .rmid =>
    some (({ s with queues := update s.queues id none }).setClient c { cl with pc := .exited })
  | .exited => none

inductive Label (C : Type)
  | parent
  | sigChld (inside : Bool)
  | child (i : Nat)
  | client (c : C)
  deriving DecidableEq

def step (su : Setup C) (s : State C) : Label C → Option (State C)
  | .parent => parent su s
  | .sigChld inside => sigChld inside s
  | .child i => child su i s
  | .client c => client su c s

def lts (su : Setup C) : Lts (State C) (Label C) := ⟨State.init, step su⟩

end DdsAuto.Svmsgmpxnq
