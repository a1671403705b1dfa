import DdsAuto.Lib.Lts
import DdsAuto.Svmsg.Server
import DdsAuto.UnixLib.Readline
import Mathlib.Data.Fintype.Basic

/-!
# `fifocliserv`

One server and any number of clients. Every client writes its pid and a line of its
input to the server's well-known FIFO and reads the answer from a FIFO of its own,
named after the pid. A step is a system call of one process together with what the
process does up to the next one; the label says how many bytes a `read` returns.

The server is modelled from where it has opened both ends of its FIFO. `open` of a
client's FIFO for writing and the client's for reading wait for each other; a `write`
of at most `PIPE_BUF` bytes, which all of them are, waits until there is room for it.
-/

namespace DdsAuto.FifoCliServ

open Function CInt CString Memory UnixLib

/-- An array of `MAXLINE` characters. -/
structure Buff where
  bytes : List UInt8
  full : bytes.length = MAXLINE

def Buff.put (buff : Buff) (off : Nat) (src : List UInt8) : Buff where
  bytes := store buff.bytes off src
  full := by rw [length_store, buff.full]

/-- `file` is what `open` and `Read` give for a pathname, or the text of `strerror`;
`capacity` is that of each FIFO, and `block` what a `buff` holds before its first use. -/
structure Setup (C : Type) where
  pid : C → Nat
  pid_injective : Function.Injective pid
  pid_lt : ∀ c, pid c < 2147483648
  stdin : C → List UInt8
  file : Svmsg.Fopen
  block : Buff
  capacity : Nat
  pipe_buf_le : MAXLINE ≤ capacity

inductive ClientPc
  | mkfifo
  | write
  | openRd
  | read
  | unlink
  | exited
  deriving DecidableEq, Repr

/-- `received` are the bytes read so far, and `printed` what `printf` found in `buff`
after each `Read`: the string there, or all of it where there is no NUL. -/
structure Client where
  pc : ClientPc
  buff : Buff
  received : List UInt8
  printed : List (List UInt8)

/-- `readline` has stored some bytes; `n` and `ptr` are as in the source, `ptr` from
the start of `buff`. `undefined` is the store to `buff[MAXLINE]`. -/
inductive ServerPc (C : Type)
  | readline (stored : List UInt8)
  | openFifo (pid : Int) (n ptr : Nat)
  | openFile (c : C) (n ptr : Nat)
  | error (c : C) (ptr : Nat)
  | copy (c : C) (rest : List UInt8)
  | close (c : C)
  | undefined
  deriving DecidableEq

/-- `serv` is what is in the server's FIFO, `unread` the rest of the `read_buf` of
`my_read`, and `fifo` what is in the client's. -/
structure State (C : Type) where
  serv : List UInt8
  unread : List UInt8
  server : ServerPc C
  buff : Buff
  fifo : C → List UInt8
  clients : C → Client

variable {C : Type}

def State.init (su : Setup C) : State C where
  serv := []
  unread := []
  server := .readline []
  buff := su.block
  fifo _ := []
  clients _ := ⟨.mkfifo, su.block, [], []⟩

-- ---------------------------------------------------------------------------
-- mainclient.cpp
-- ---------------------------------------------------------------------------

namespace Setup

/-- `Fgets(ptr, MAXLINE - len, stdin)`; nothing is stored at the end of the input. -/
def typed (su : Setup C) (c : C) : List UInt8 :=
  match fgets (MAXLINE - (Svmsg.start (su.pid c)).length) (su.stdin c) with
  | none => []
  | some (line, _) => line

/-- What the client writes: its buffer up to the first NUL. -/
def request (su : Setup C) (c : C) : List UInt8 :=
  cstr (Svmsg.start (su.pid c) ++ su.typed c)

end Setup

/-- The server has the client's FIFO open. -/
def State.Writing (s : State C) (c : C) : Prop :=
  match s.server with
  | .openFile d _ _ | .error d _ | .copy d _ | .close d => d = c
  | .readline _ | .openFifo .. | .undefined => False

instance [DecidableEq C] (s : State C) (c : C) : Decidable (s.Writing c) := by
  unfold State.Writing; split <;> infer_instance

variable [DecidableEq C]

def State.setClient (s : State C) (c : C) (cl : Client) : State C :=
  { s with clients := update s.clients c cl }

/-- The braces of the `while` are missing, so that `Write` gets the 0 of the last `Read`. -/
def client (su : Setup C) (c : C) (k : Nat) (s : State C) : Option (State C) :=
  let cl := s.clients c
  match cl.pc with
  | .mkfifo =>
    let buff := cl.buff.put 0 (Svmsg.start (su.pid c) ++ su.typed c ++ [0])
    some (s.setClient c { cl with pc := .write, buff := buff })
  | .write =>
    if s.serv.length + (su.request c).length ≤ su.capacity then
      some { s.setClient c { cl with pc := .openRd } with serv := s.serv ++ su.request c }
    else none
  | .openRd => none
  | .read =>
    if s.fifo c = [] then
      if s.Writing c then none else some (s.setClient c { cl with pc := .unlink })
    else if 0 < k ∧ k ≤ MAXLINE then
      let chunk := (s.fifo c).take k
      let buff := cl.buff.put 0 chunk
      some { s.setClient c ⟨.read, buff, cl.received ++ chunk, cl.printed ++ [cstr buff.bytes]⟩ with
        fifo := update s.fifo c ((s.fifo c).drop k) }
    else none
  | .unlink => some (s.setClient c { cl with pc := .exited })
  | .exited => none

-- ---------------------------------------------------------------------------
-- mainserver.cpp
-- ---------------------------------------------------------------------------

omit [DecidableEq C] in
/-- The loop from where `Readline` has returned `n` to the `open` of the client's FIFO. -/
def received (buff : Buff) (n : Nat) : Buff × ServerPc C :=
  let n := if buff.bytes[n - 1]? = some 10 then n - 1 else n
  if n = MAXLINE then (buff, .undefined)
  else
    let buff := buff.put n [0]
    match Svmsg.strchr buff.bytes 32 with
    | none => (buff, .readline [])
    | some i =>
      let buff := buff.put i [0]
      (buff, .openFifo (toInt (atol (cstr buff.bytes))) n (i + 1))

omit [DecidableEq C] in
/-- A pass of `readline` that has got a byte; its `n` is one ahead of the bytes stored,
except where it stops at a newline. -/
def pass (buff : Buff) (stored : List UInt8) (b : UInt8) : Buff × ServerPc C :=
  let stored := stored ++ [b]
  if b = 10 then received (buff.put 0 (stored ++ [0])) stored.length
  else if stored.length + 1 < MAXLINE then (buff, .readline stored)
  else received (buff.put 0 (stored ++ [0])) (stored.length + 1)

/-- The FIFO named after the number exists. -/
def HasFifo (su : Setup C) (s : State C) (pid : Int) : Prop :=
  ∃ c, (su.pid c : Int) = pid ∧ (s.clients c).pc ≠ .mkfifo ∧ (s.clients c).pc ≠ .exited

instance [Fintype C] (su : Setup C) (s : State C) (pid : Int) : Decidable (HasFifo su s pid) := by
  unfold HasFifo; infer_instance

/-- A `read` of the FIFO waits while it is empty: `dummyfd` keeps it open for writing. -/
def readRequest (s : State C) (stored : List UInt8) (k : Nat) : Option (State C) :=
  if s.unread = [] ∧ ¬ (0 < k ∧ k ≤ MAXLINE ∧ s.serv ≠ []) then none
  else
    match myRead ⟨s.unread, [.data (s.serv.take k)]⟩ with
    | (.byte b, r) =>
      let (buff, pc) := pass s.buff stored b
      some { s with
        serv := if s.unread = [] then s.serv.drop k else s.serv
        unread := r.unread
        server := pc
        buff := buff }
    | _ => none

/-- `err_msg("cannot open: ..")`. -/
def noFifo [Fintype C] (su : Setup C) (s : State C) : Option (State C) :=
  match s.server with
  | .openFifo pid _ _ => if HasFifo su s pid then none else some { s with server := .readline [] }
  | _ => none

/-- The client has come to its `open`, or is past it. -/
def openFifo (su : Setup C) (c : C) (s : State C) : Option (State C) :=
  match s.server with
  | .openFifo pid n ptr =>
    if (su.pid c : Int) = pid ∧ ((s.clients c).pc = .openRd ∨ (s.clients c).pc = .read) then
      some { s.setClient c { s.clients c with pc := .read } with server := .openFile c n ptr }
    else none
  | _ => none

def server (su : Setup C) (k : Nat) (s : State C) : Option (State C) :=
  match s.server with
  | .readline stored => readRequest s stored k
  | .openFifo .. => none
  | .openFile c n ptr =>
    match su.file (cstr (s.buff.bytes.drop ptr)) with
    | .error strerror =>
      let text := (Svmsg.cantOpen (cstr strerror)).take (MAXLINE - n - 1)
      some { s with server := .error c ptr, buff := s.buff.put n (text ++ [0]) }
    | .ok content => some { s with server := .copy c content }
  | .error c ptr =>
    let text := cstr (s.buff.bytes.drop ptr)
    if (s.fifo c).length + text.length ≤ su.capacity then
      some { s with server := .close c, fifo := update s.fifo c (s.fifo c ++ text) }
    else none
  | .copy c rest =>
    if rest = [] then some { s with server := .close c }
    else
      let chunk := rest.take k
      if 0 < k ∧ k ≤ MAXLINE ∧ (s.fifo c).length + chunk.length ≤ su.capacity then
        some { s with
          server := .copy c (rest.drop k)
          buff := s.buff.put 0 chunk
          fifo := update s.fifo c (s.fifo c ++ chunk) }
      else none
  | .close _ => some { s with server := .readline [] }
  | .undefined => none

inductive Label (C : Type)
  | client (c : C) (k : Nat)
  | server (k : Nat)
  | openFifo (c : C)
  | noFifo
  deriving DecidableEq, Repr

def step [Fintype C] (su : Setup C) (s : State C) : Label C → Option (State C)
  | .client c k => client su c k s
  | .server k => server su k s
  | .openFifo c => openFifo su c s
  | .noFifo => noFifo su s

def system [Fintype C] (su : Setup C) : Lts (State C) (Label C) where
  init := .init su
  step := step su

end DdsAuto.FifoCliServ
