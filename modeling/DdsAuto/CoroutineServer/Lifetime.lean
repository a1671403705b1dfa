import DdsAuto.Asio.IdHeader
import DdsAuto.Lib.Lts

/-!
# Who keeps a session of CoroutineServer alive

The reading coroutine of `Start` uses `this`, which its lambda captures; the
`shared_this` beside it is not named in the lambda and so not captured. What
keeps the session alive is elsewhere, and `HandleWrite` gives up the map's
entry without asking whether the coroutine has returned.

A coroutine resumption, a critical section and a write handler are one step
each; `HandleAccept` takes one for each of its statements.
-/

namespace DdsAuto.CoroutineServer.Lifetime

open Asio Lts

/-- The statement of `HandleAccept` that comes next for a session's accept. -/
inductive Accept
  | none
  | pending
  | start
  | insert
  | startAccept
  | returned
  deriving DecidableEq, Repr

inductive Reader
  | notStarted
  | running
  | returned
  deriving DecidableEq, Repr

/-- The logic worker, by the session of the node it has taken. -/
inductive Consumer
  | idle
  | calling (x : Nat)
  | called (x : Nat)
  deriving DecidableEq, Repr

/-- `sendQue` counts the frames queued, `writes` the write handlers pending. -/
structure Peer where
  accept : Accept
  reader : Reader
  inMap : Bool
  bClose : Bool
  sendQue : Nat
  writes : Nat
  deriving DecidableEq, Repr

def Peer.new (accept : Accept) : Peer where
  accept := accept
  reader := .notStarted
  inMap := false
  bClose := false
  sendQue := 0
  writes := 0

structure Server where
  peers : Nat → Peer
  accepting : Nat
  msgQue : List Nat
  worker : Consumer

namespace Server

def set (s : Server) (x : Nat) (p : Peer) : Server :=
  { s with peers := Function.update s.peers x p }

/-- The constructor of `CServer` has called `StartAccept`. -/
def start : Server where
  peers := Function.update (fun _ => .new .none) 0 (.new .pending)
  accepting := 0
  msgQue := []
  worker := .idle

end Server

/-- `HandleAccept`, one statement at a time; `StartAccept` binds the next
session's `new_session`. -/
def handleAccept (s : Server) (x : Nat) : Option Server :=
  let p := s.peers x
  match p.accept with
  | .start => some (s.set x { p with accept := .insert, reader := .running })
  | .insert => some (s.set x { p with accept := .startAccept, inMap := true })
  | .startAccept =>
    let next := s.accepting + 1
    some { (s.set x { p with accept := .returned }).set next (.new .pending) with accepting := next }
  | _ => none

/-- What a resumption of the coroutine finds: a message, or a reason to clear
the session and return. -/
inductive Resumed
  | message
  | over (close : Bool)
  deriving DecidableEq, Repr

def resume (s : Server) (x : Nat) (r : Resumed) : Option Server :=
  let p := s.peers x
  match p.reader, r with
  | .running, .message =>
    -- the loop ends without clearing where `Close` was called meanwhile
    let s := if p.bClose then s.set x { p with reader := .returned } else s
    some { s with msgQue := s.msgQue ++ [x] }
  | .running, .over close =>
    some (s.set x { p with reader := .returned, inMap := false, bClose := p.bClose || close })
  | _, _ => none

/-- One step of the logic worker: it takes a node, calls back, pops. `sends`
says whether the callback calls `Send`, which only a registered one does. -/
def dealMsg (s : Server) (sends : Bool) : Option Server :=
  match s.worker with
  | .idle => s.msgQue.head?.map fun x => { s with worker := .calling x }
  | .calling x =>
    let p := s.peers x
    let s := { s with worker := .called x }
    if sends && p.sendQue ≤ maxSendque then
      some (s.set x { p with
        sendQue := p.sendQue + 1
        writes := if p.sendQue = 0 then p.writes + 1 else p.writes })
    else some s
  | .called _ => some { s with msgQue := s.msgQue.tail, worker := .idle }

def handleWrite (s : Server) (x : Nat) (error : Bool) : Option Server :=
  let p := s.peers x
  match p.writes with
  | 0 => none
  | n + 1 =>
    if error then some (s.set x { p with writes := n, bClose := true, inMap := false })
    else
      some (s.set x { p with
        sendQue := p.sendQue - 1
        writes := if p.sendQue - 1 = 0 then n else n + 1 })

/-- `accept`, `resume` and `write` are completions: of the accept, of a read the
coroutine awaits, of a write. -/
inductive Label
  | accept (x : Nat) (error : Bool)
  | handleAccept (x : Nat)
  | resume (x : Nat) (r : Resumed)
  | worker (sends : Bool)
  | write (x : Nat) (error : Bool)
  deriving DecidableEq, Repr

def step (s : Server) : Label → Option Server
  | .accept x error =>
    let p := s.peers x
    if p.accept = .pending then
      some (s.set x { p with accept := if error then .startAccept else .start })
    else none
  | .handleAccept x => handleAccept s x
  | .resume x r => resume s x r
  | .worker sends => dealMsg s sends
  | .write x error => handleWrite s x error

def system : Lts Server Label where
  init := .start
  step := step

-- ---------------------------------------------------------------------------
-- Owners
-- ---------------------------------------------------------------------------

/-- Some `shared_ptr` to the session exists: `new_session` bound in the accept
handler, the map's entry, a queued node, the worker's copy of one, or the
`shared_self` of a write handler. The coroutine holds none. -/
def Owned (s : Server) (x : Nat) : Prop :=
  ((s.peers x).accept ≠ .none ∧ (s.peers x).accept ≠ .returned) ∨ (s.peers x).inMap = true ∨
    x ∈ s.msgQue ∨ s.worker = .calling x ∨ s.worker = .called x ∨ 0 < (s.peers x).writes

instance (s : Server) (x : Nat) : Decidable (Owned s x) := by unfold Owned; infer_instance

def Alive (s : Server) (x : Nat) : Prop := (s.peers x).reader = .running → Owned s x

instance (s : Server) (x : Nat) : Decidable (Alive s x) := by unfold Alive; infer_instance

/-- A failed write is handled only once the coroutine has returned. -/
def WriteFailsAfterReader (s : Server) (a : Label) : Prop :=
  ∀ x, a = .write x true → (s.peers x).reader ≠ .running

/-- Between `Start` and the insertion the accept handler is the owner, after it
the map, until the coroutine clears the session itself. -/
def Kept (p : Peer) : Prop := p.reader = .running → p.accept = .insert ∨ p.inMap = true

def LifeInv (s : Server) : Prop := ∀ x, Kept (s.peers x)

section
variable {s s' : Server} {x : Nat} {p : Peer}

theorem lifeInv_set (hs : LifeInv s) (hp : Kept p) : LifeInv (s.set x p) := by
  intro y
  by_cases hy : y = x
  · simpa [Server.set, hy] using hp
  · simpa [Server.set, hy] using hs y

theorem lifeInv_handleAccept (hs : LifeInv s) (h : handleAccept s x = some s') : LifeInv s' := by
  cases ha : (s.peers x).accept <;> simp only [handleAccept, ha] at h
  case start =>
    cases h
    exact lifeInv_set hs fun _ => .inl rfl
  case insert =>
    cases h
    exact lifeInv_set hs fun _ => .inr rfl
  case startAccept =>
    cases h
    have hx : Kept { s.peers x with accept := .returned } := fun hr =>
      .inr ((hs x hr).resolve_left (by rw [ha]; nofun))
    exact lifeInv_set (lifeInv_set hs hx) nofun
  all_goals cases h

theorem lifeInv_resume (hs : LifeInv s) (h : resume s x r = some s') : LifeInv s' := by
  cases hr : (s.peers x).reader <;> cases r <;> simp only [resume, hr] at h <;> cases h
  case running.message =>
    split
    · exact lifeInv_set hs nofun
    · exact hs
  case running.over close => exact lifeInv_set hs nofun

theorem lifeInv_dealMsg (hs : LifeInv s) (h : dealMsg s sends = some s') : LifeInv s' := by
  cases hw : s.worker <;> simp only [dealMsg, hw] at h
  case idle =>
    obtain ⟨y, -, rfl⟩ := Option.map_eq_some_iff.mp h
    exact hs
  case calling y =>
    split at h <;> cases h
    · exact lifeInv_set hs (hs y)
    · exact hs
  case called y =>
    cases h
    exact hs

theorem lifeInv_step (hs : LifeInv s) (hok : WriteFailsAfterReader s a) (h : step s a = some s') :
    LifeInv s' := by
  cases a with
  | accept x error =>
    simp only [step, Option.ite_none_right_eq_some, Option.some.injEq] at h
    obtain ⟨ha, rfl⟩ := h
    exact lifeInv_set hs fun hr => .inr ((hs x hr).resolve_left (by rw [ha]; nofun))
  | handleAccept x => exact lifeInv_handleAccept hs h
  | resume x r => exact lifeInv_resume hs h
  | worker sends => exact lifeInv_dealMsg hs h
  | write x error =>
    simp only [step, handleWrite] at h
    split at h
    · cases h
    · split at h <;> cases h
      · rename_i herr
        subst herr
        exact lifeInv_set hs fun hr => absurd hr (hok x rfl)
      · exact lifeInv_set hs (hs x)

end

/-- The coroutine's session is owned in every state of a run whose failed writes
come after the coroutine's return. -/
theorem session_alive (s : Server) (x : Nat)
    (h : system.Reachable WriteFailsAfterReader s) : Alive s x := by
  have hs : LifeInv s :=
    h.invariant (P := LifeInv) (fun y hr => by
      by_cases hy : y = 0 <;> simp [system, Server.start, Peer.new, hy] at hr)
      fun _ _ _ hs hok hstep => lifeInv_step hs hok hstep
  intro hr
  rcases hs x hr with ha | hm
  · exact .inl ⟨by rw [ha]; nofun, by rw [ha]; nofun⟩
  · exact .inr (.inl hm)

theorem session_alive_started : ∃ s, (s.peers 0).reader = .running ∧ Alive s 0 :=
  ⟨_, rfl, session_alive _ 0
    ((Reachable.init.step (a := .accept 0 false) nofun rfl).step (a := .handleAccept 0) nofun rfl)⟩

/-- The peer sends a message and stops reading; the reply fails while the
coroutine waits for the next header. -/
theorem session_not_alive : ¬ ∀ s x, system.Reachable anyStep s → Alive s x := by
  intro h
  obtain ⟨s, hs, hdead⟩ := reachable_of_exec system
    [.accept 0 false, .handleAccept 0, .handleAccept 0, .handleAccept 0, .resume 0 .message,
      .worker false, .worker true, .worker false, .write 0 true]
    (fun s => decide (¬ Alive s 0)) (by decide)
  exact of_decide_eq_true hdead (h s 0 hs)

end DdsAuto.CoroutineServer.Lifetime
