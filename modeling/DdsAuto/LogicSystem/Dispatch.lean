import DdsAuto.Asio.MsgNode
import DdsAuto.Lib.Lts

/-!
# `LogicSystem`: posters, the worker and the destructor

One step is one statement of `PostMsgToQue`, `DealMsg` or `~LogicSystem`. Any
number of threads post; `_consume.wait` releases the mutex and blocks in one
step and may wake without a notification; `_b_stop` is read and written as the
source does it, the store without the mutex. `posted`, `popped` and `log` record
the run.
-/

namespace DdsAuto.LogicSystem

open Asio

/-- `LogicNode`; a session is known by its number. -/
structure LogicNode where
  session : Nat
  recvnode : RecvNode
  deriving DecidableEq, Repr

/-- Where a thread is in `PostMsgToQue`. -/
inductive Poster
  | idle
  | lock (msg : LogicNode)
  | push (msg : LogicNode)
  | testSize
  | unlock
  | notify
  | leave
  deriving DecidableEq, Repr

/-- Where the worker is in `DealMsg`. `drain` tells the loop under `if (_b_stop)`
from the main one; `wait` has read both conditions and has not blocked yet. -/
inductive Worker
  | lock
  | testEmpty
  | testStop
  | wait
  | blocked (notified : Bool)
  | relock
  | ifStop
  | testDrain
  | front (drain : Bool)
  | find (drain : Bool) (msg : LogicNode)
  | call (drain : Bool) (msg : LogicNode)
  | pop (drain : Bool) (msg : LogicNode)
  | unlock
  | leave
  | exited
  deriving DecidableEq, Repr

/-- A notification reaches the worker only where it waits. -/
def Worker.woken : Worker → Worker
  | .blocked _ => .blocked true
  | w => w

/-- Where `~LogicSystem` is: the last statement it has executed. -/
inductive Dtor
  | alive
  | stored
  | notified
  | joined
  deriving DecidableEq, Repr

inductive Owner
  | worker
  | poster (i : Nat)
  deriving DecidableEq, Repr

/-- What the worker does with a message. -/
inductive Act
  | take (msg : LogicNode)
  | call (msg : LogicNode)
  | pop (msg : LogicNode)
  deriving DecidableEq, Repr

structure State where
  mutex : Option Owner
  msgQue : List LogicNode
  bStop : Bool
  worker : Worker
  posters : Nat → Poster
  dtor : Dtor
  posted : List LogicNode
  popped : List LogicNode
  log : List Act

namespace State

def setPoster (s : State) (i : Nat) (p : Poster) : State :=
  { s with posters := Function.update s.posters i p }

def setWorker (s : State) (w : Worker) : State := { s with worker := w }

/-- `_consume.notify_one()`; only the worker ever waits. -/
def notifyOne (s : State) : State := s.setWorker s.worker.woken

def record (s : State) (a : Act) : State := { s with log := s.log ++ [a] }

/-- `_msg_que.pop()`. On an empty queue it is undefined. -/
def pop (s : State) : Option State :=
  match s.msgQue with
  | [] => none
  | msg :: msgs => some { s.record (.pop msg) with msgQue := msgs, popped := s.popped ++ [msg] }

def start : State where
  mutex := none
  msgQue := []
  bStop := false
  worker := .lock
  posters := fun _ => .idle
  dtor := .alive
  posted := []
  popped := []
  log := []

end State

def postMsgToQue (s : State) (i : Nat) : Option State :=
  match s.posters i with
  | .idle => none
  | .lock msg =>
    if s.mutex = none then some ({ s with mutex := some (.poster i) }.setPoster i (.push msg))
    else none
  | .push msg =>
    some ({ s with msgQue := s.msgQue ++ [msg], posted := s.posted ++ [msg] }.setPoster i .testSize)
  | .testSize => some (s.setPoster i (if s.msgQue.length = 1 then .unlock else .leave))
  | .unlock => some ({ s with mutex := none }.setPoster i .notify)
  | .notify => some (s.notifyOne.setPoster i .idle)
  | .leave => some ({ s with mutex := none }.setPoster i .idle)

/-- `registered` says for which ids `_fun_callbacks` has a callback. -/
def dealMsg (registered : Int → Bool) (s : State) : Option State :=
  match s.worker with
  | .lock | .relock =>
    if s.mutex = none then some ({ s with mutex := some .worker }.setWorker .testEmpty) else none
  | .testEmpty => some (s.setWorker (if s.msgQue = [] then .testStop else .ifStop))
  | .testStop => some (s.setWorker (if s.bStop then .ifStop else .wait))
  | .wait => some ({ s with mutex := none }.setWorker (.blocked false))
  | .blocked _ => none
  | .ifStop => some (s.setWorker (if s.bStop then .testDrain else .front false))
  | .testDrain => some (s.setWorker (if s.msgQue = [] then .leave else .front true))
  | .front drain => s.msgQue.head?.map fun msg => (s.record (.take msg)).setWorker (.find drain msg)
  | .find drain msg =>
    some (s.setWorker (if registered msg.recvnode.msgId then .call drain msg else .pop drain msg))
  | .call drain msg => some ((s.record (.call msg)).setWorker (.pop drain msg))
  | .pop drain _ => s.pop.map (·.setWorker (if drain then .testDrain else .unlock))
  | .unlock => some ({ s with mutex := none }.setWorker .lock)
  | .leave => some ({ s with mutex := none }.setWorker .exited)
  | .exited => none

def destroy (s : State) : Option State :=
  match s.dtor with
  | .alive => some { s with bStop := true, dtor := .stored }
  | .stored => some { s.notifyOne with dtor := .notified }
  | .notified => if s.worker = .exited then some { s with dtor := .joined } else none
  | .joined => none

/-- Who moves: `call` is a thread that enters `PostMsgToQue`, `wake` the return
of `_consume.wait` to its mutex, notified or not. -/
inductive Label
  | call (i : Nat) (msg : LogicNode)
  | poster (i : Nat)
  | worker
  | wake
  | destroy
  deriving DecidableEq, Repr

def step (registered : Int → Bool) (s : State) : Label → Option State
  | .call i msg => if s.posters i = .idle then some (s.setPoster i (.lock msg)) else none
  | .poster i => postMsgToQue s i
  | .worker => dealMsg registered s
  | .wake =>
    match s.worker with
    | .blocked _ => some (s.setWorker .relock)
    | _ => none
  | .destroy => destroy s

def system (registered : Int → Bool) : Lts State Label where
  init := .start
  step := step registered

end DdsAuto.LogicSystem
