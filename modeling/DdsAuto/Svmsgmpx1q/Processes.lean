import DdsAuto.Lib.MsgQueue
import DdsAuto.Svmsg.Request

/-!
# The server and the clients of `svmsgmpx1q`

What `server` and `client` do between their calls of `Mesg_send` and
`Mesg_recv`. Requests have type 1, and a client's replies its pid. Which queues
the calls go to is left to the programs that start them.
-/

namespace DdsAuto.Svmsgmpx1q

open MsgQueue Svmsg CString CInt

abbrev Queue := List (Msg (List UInt8))

/-- `send`: the next message to the client, and those after it. -/
inductive Server
  | recv
  | send (mesg_type : Int) (m : List UInt8) (todo : List (List UInt8))
  | exited
  deriving DecidableEq, Repr

/-- The loop's next step with these messages still to send. -/
def Server.sending (mesg_type : Int) : List (List UInt8) → Server
  | [] => .recv
  | m :: todo => .send mesg_type m todo

/-- What the server does with a request; its `pid_t` is an `int`. -/
def Server.received (fopen : Int → Fopen) (data : List UInt8) : Server :=
  match parse data with
  | .error _ => .recv
  | .ok (number, ptr) =>
    let pid := toInt (atol number)
    .sending pid (replies (fopen pid) data.length ptr)

/-- The messages it has still to send under a type. -/
def Server.todo (type : Int) : Server → List (List UInt8)
  | .send mesg_type m todo => if mesg_type = type then m :: todo else []
  | .recv | .exited => []

/-- `recv` carries the `mesg_type` that `msgrcv` is asked for. -/
inductive ClientPc
  | send
  | recv (mesg_type : Int)
  | done
  deriving DecidableEq, Repr

structure Client where
  pc : ClientPc
  output : List UInt8
  deriving DecidableEq, Repr

/-- `mesg_type` is then what `msgrcv` has stored. -/
def Client.received (cl : Client) (m : Msg (List UInt8)) : Client :=
  if m.data = [] then { cl with pc := .done }
  else { pc := .recv m.type, output := cl.output ++ m.data }

/-- The clients' pids and inputs, and what `fopen` gives for each client's request. -/
structure Clients (C : Type) where
  pid : C → Nat
  stdin : C → List UInt8
  fopen : Int → Fopen
  one_lt_pid : ∀ c, 1 < pid c
  pid_lt : ∀ c, pid c < 2147483648
  pid_injective : Function.Injective pid

namespace Clients

variable {C : Type}

def request (cs : Clients C) (c : C) : List UInt8 := Svmsg.request (cs.pid c) (cs.stdin c)

/-- The messages that answer the client's request. -/
def answer (cs : Clients C) (c : C) : List (List UInt8) :=
  Svmsg.answer (cs.fopen (cs.pid c)) (cs.pid c) (cs.stdin c)

theorem pid_ne_one (cs : Clients C) (c : C) : (cs.pid c : Int) ≠ 1 := by
  have h := cs.one_lt_pid c
  omega

theorem not_pid_le_zero (cs : Clients C) (c : C) : ¬ (cs.pid c : Int) ≤ 0 := by
  have h := cs.one_lt_pid c
  omega

theorem pid_ne (cs : Clients C) (h : d ≠ c) : (cs.pid d : Int) ≠ cs.pid c :=
  fun heq => h (cs.pid_injective (Int.ofNat.inj heq))

end Clients

variable {C : Type}

@[simp] theorem todo_sending (t u : Int) (ms : List (List UInt8)) :
    (Server.sending t ms).todo u = if t = u then ms else [] := by
  cases ms with
  | nil => simp [Server.sending, Server.todo]
  | cons m todo => rfl

/-- The server answers a client's request, under the client's pid. -/
theorem received_request (cs : Clients C) (c : C) :
    Server.received cs.fopen (cs.request c) = .sending (cs.pid c) (cs.answer c) := by
  rw [Server.received, Clients.request, parse_request]
  simp only [atol_decimal, toInt_natCast _ (cs.pid_lt c)]
  rfl

/-- There is always something to send. -/
theorem exists_received (cs : Clients C) (c : C) :
    ∃ m todo, Server.received cs.fopen (cs.request c) = .send (cs.pid c) m todo ∧
      cs.answer c = m :: todo := by
  obtain ⟨m, todo, h⟩ :=
    List.exists_cons_of_ne_nil (answer_ne_nil (cs.fopen (cs.pid c)) (cs.pid c) (cs.stdin c))
  have hanswer : cs.answer c = m :: todo := h
  exact ⟨m, todo, by rw [received_request, hanswer]; rfl, hanswer⟩

end DdsAuto.Svmsgmpx1q
