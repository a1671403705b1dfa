import DdsAuto.Asio.IdHeader
import DdsAuto.Lib.Lts
import Mathlib.Data.Finset.Basic

/-!
# The registry of IoContextPoolServer

The accept thread starts a session and then puts it into `_sessions`; the
session's handlers run on a thread of the pool and take it out when its read or
write fails. A handler is one step, and so is each statement of `HandleAccept`
and each message the logic thread deals with. Sessions are numbered as they are
made; the number stands for the uuid.

A session whose first read fails before the accept thread has gone on from
`Start` is taken out before it is put in, and stays.
-/

namespace DdsAuto.IoContextPoolServer

open Asio Lts

/-- The statement of `HandleAccept` that comes next, with its `new_session`;
`pending` is the accept that `StartAccept` left outstanding. -/
inductive Accept
  | pending (x : Nat)
  | start (x : Nat)
  | insert (x : Nat)
  | startAccept (x : Nat)
  deriving DecidableEq, Repr

def Accept.newSession : Accept → Nat
  | .pending x | .start x | .insert x | .startAccept x => x

/-- A `CSession`. `reads` and `writes` count the operations outstanding on its
socket, `sendQue` the frames queued. -/
structure Conn where
  session : Session Unit
  reads : Nat
  writes : Nat
  sendQue : Nat
  bClose : Bool

/-- What the constructor of `CSession` leaves. -/
def Conn.new : Conn where
  session := .fresh postServer ()
  reads := 0
  writes := 0
  sendQue := 0
  bClose := false

/-- `dead` are the sessions whose `ClearSession` after an error has run. -/
structure State where
  accept : Accept
  conn : Nat → Conn
  sessions : Finset Nat
  dead : Finset Nat
  msgQue : List (Nat × RecvNode)

def State.set (s : State) (x : Nat) (c : Conn) : State :=
  { s with conn := Function.update s.conn x c }

/-- One statement of `HandleAccept`. -/
def handleAccept (s : State) : Option State :=
  match s.accept with
  | .pending _ => none
  | .start x =>
    -- `Start` arms the first read.
    let s' := s.set x { s.conn x with reads := (s.conn x).reads + 1 }
    some { s' with accept := .insert x }
  | .insert x => some { s with sessions := insert x s.sessions, accept := .startAccept x }
  | .startAccept x => some { s with accept := .pending (x + 1) }

def clearSession (s : State) (x : Nat) : State := { s with sessions := s.sessions.erase x }

/-- `HandleRead` with a chunk; a call that overruns a buffer has no step. -/
def readChunk (s : State) (x : Nat) (chunk : List UInt8) : Option State :=
  let c := s.conn x
  if 0 < c.reads ∧ ChunkOk chunk then
    (handleRead postServer c.session chunk).ended.map fun call =>
      let s := s.set x { c with
        session := call.session
        reads := c.reads - 1 + call.events.count .asyncReadSome }
      let s := { s with
        msgQue := s.msgQue ++ (call.events.filterMap Event.posted).map fun node => (x, node) }
      if .clearSession ∈ call.events then clearSession s x else s
  else none

/-- The branch both handlers have for an error: `Close` and `ClearSession`. -/
def handleError (s : State) (x : Nat) (c : Conn) : State :=
  let s := clearSession (s.set x { c with bClose := true }) x
  { s with dead := insert x s.dead }

def readError (s : State) (x : Nat) : Option State :=
  let c := s.conn x
  if 0 < c.reads then some (handleError s x { c with reads := c.reads - 1 }) else none

/-- `HandleWrite`. -/
def handleWrite (s : State) (x : Nat) (error : Bool) : Option State :=
  let c := s.conn x
  if 0 < c.writes then
    if error then some (handleError s x { c with writes := c.writes - 1 })
    else
      some (s.set x { c with
        sendQue := c.sendQue - 1
        writes := if c.sendQue - 1 = 0 then c.writes - 1 else c.writes })
  else none

/-- `Send`, as far as it counts frames. -/
def Conn.send (c : Conn) : Conn :=
  if c.sendQue > maxSendque then c
  else { c with
    sendQue := c.sendQue + 1
    writes := if c.sendQue > 0 then c.writes else c.writes + 1 }

/-- One message of `DealMsg`; the one registered callback sends. -/
def dealMsg (s : State) : Option State :=
  match s.msgQue with
  | [] => none
  | (x, node) :: rest =>
    let s := { s with msgQue := rest }
    if node.msgId = msgHelloWord then some (s.set x (s.conn x).send) else some s

inductive Label
  | accept (error : Bool)
  | handleAccept
  | read (x : Nat) (chunk : List UInt8)
  | readError (x : Nat)
  | write (x : Nat) (error : Bool)
  | dealMsg

def step (s : State) : Label → Option State
  | .accept error =>
    match s.accept with
    | .pending x => some { s with accept := if error then .startAccept x else .start x }
    | _ => none
  | .handleAccept => handleAccept s
  | .read x chunk => readChunk s x chunk
  | .readError x => readError s x
  | .write x error => handleWrite s x error
  | .dealMsg => dealMsg s

/-- The constructor of `CServer` has called `StartAccept`. -/
def system : Lts State Label where
  init := ⟨.pending 0, fun _ => .new, ∅, ∅, []⟩
  step := step

/-- No session is in the registry once it has been cleared for an error. -/
def State.Clean (s : State) : Prop := ∀ x ∈ s.dead, x ∉ s.sessions

/-- The label is the error handler of session `x`. -/
def Label.fails : Label → Option Nat
  | .readError x | .write x true => some x
  | _ => none

/-- No session fails between its `Start` and its insertion. -/
def FailsOutsideInsert (s : State) (a : Label) : Prop := ∀ x, a.fails = some x → s.accept ≠ .insert x

instance (s : State) (a : Label) : Decidable (FailsOutsideInsert s a) :=
  inferInstanceAs (Decidable (∀ x ∈ a.fails, s.accept ≠ .insert x))

-- ---------------------------------------------------------------------------
-- The invariant
-- ---------------------------------------------------------------------------

/-- `Start` has not been called on the session. -/
def State.Unstarted (s : State) (x : Nat) : Prop :=
  s.accept.newSession < x ∨ s.accept = .pending x ∨ s.accept = .start x

/-- A session not started has nothing outstanding, and one that is about to be
put in is not dead. -/
structure Inv (s : State) : Prop where
  clean : s.Clean
  inserting : ∀ x, s.accept = .insert x → x ∉ s.dead
  idle : ∀ x, s.Unstarted x → (s.conn x).reads = 0 ∧ (s.conn x).writes = 0
  alive : ∀ x, s.Unstarted x → x ∉ s.dead
  queued : ∀ m ∈ s.msgQue, ¬ s.Unstarted m.1

variable {s s' : State} {x : Nat} {c : Conn} {a : Label}

theorem Inv.started_of_read (h : Inv s) (hr : 0 < (s.conn x).reads) : ¬ s.Unstarted x := by
  intro hx
  rw [(h.idle x hx).1] at hr
  exact Nat.lt_irrefl 0 hr

theorem Inv.started_of_write (h : Inv s) (hw : 0 < (s.conn x).writes) : ¬ s.Unstarted x := by
  intro hx
  rw [(h.idle x hx).2] at hw
  exact Nat.lt_irrefl 0 hw

/-- What a started session has outstanding may change. -/
theorem idle_set (hi : ∀ y, s.Unstarted y → (s.conn y).reads = 0 ∧ (s.conn y).writes = 0)
    (hx : ¬ s.Unstarted x) :
    ∀ y, s.Unstarted y → ((s.set x c).conn y).reads = 0 ∧ ((s.set x c).conn y).writes = 0 := by
  intro y hy
  have hyx : y ≠ x := by
    rintro rfl
    exact hx hy
  simp only [State.set, Function.update_of_ne hyx]
  exact hi y hy

theorem Inv.set (h : Inv s) (hx : ¬ s.Unstarted x) : Inv (s.set x c) :=
  ⟨h.clean, h.inserting, idle_set h.idle hx, h.alive, h.queued⟩

theorem Inv.clearSession (h : Inv s) : Inv (clearSession s x) :=
  ⟨fun y hy hin => h.clean y hy (Finset.mem_of_mem_erase hin), h.inserting, h.idle, h.alive,
    h.queued⟩

theorem Inv.enqueue (h : Inv s) (hx : ¬ s.Unstarted x) (nodes : List RecvNode) :
    Inv { s with msgQue := s.msgQue ++ nodes.map fun node => (x, node) } := by
  refine ⟨h.clean, h.inserting, h.idle, h.alive, fun m hm => ?_⟩
  rcases List.mem_append.mp hm with hm | hm
  · exact h.queued m hm
  · obtain ⟨node, -, rfl⟩ := List.mem_map.mp hm
    exact hx

theorem Inv.handleError (h : Inv s) (hx : ¬ s.Unstarted x) (hin : s.accept ≠ .insert x) :
    Inv (handleError s x c) := by
  refine ⟨fun y hy => ?_, fun y hy => ?_, idle_set h.idle hx, fun y hy => ?_, h.queued⟩
  · rcases Finset.mem_insert.mp hy with rfl | hy
    · exact Finset.notMem_erase y _
    · exact fun hmem => h.clean y hy (Finset.mem_of_mem_erase hmem)
  · refine fun hdead => ?_
    rcases Finset.mem_insert.mp hdead with rfl | hdead
    · exact hin hy
    · exact h.inserting y hy hdead
  · refine fun hdead => ?_
    rcases Finset.mem_insert.mp hdead with rfl | hdead
    · exact hx hy
    · exact h.alive y hy hdead

/-- The accept thread goes on and no session becomes unstarted. -/
theorem Inv.moveAccept (h : Inv s) (accept : Accept) (hno : ∀ y, accept ≠ .insert y)
    (hold : ∀ y, State.Unstarted { s with accept } y → s.Unstarted y) :
    Inv { s with accept } :=
  ⟨h.clean, fun y hy => absurd hy (hno y), fun y hy => h.idle y (hold y hy),
    fun y hy => h.alive y (hold y hy), fun m hm hy => h.queued m hm (hold m.1 hy)⟩

theorem Inv.insertSession (h : Inv s) (hx : x ∉ s.dead) :
    Inv { s with sessions := insert x s.sessions } := by
  refine ⟨fun y hy hin => ?_, h.inserting, h.idle, h.alive, h.queued⟩
  rcases Finset.mem_insert.mp hin with rfl | hin
  · exact hx hy
  · exact h.clean y hy hin

theorem Inv.handleAccept (h : Inv s) (hstep : handleAccept s = some s') : Inv s' := by
  unfold IoContextPoolServer.handleAccept at hstep
  cases ha : s.accept with
  | pending x =>
    rw [ha] at hstep
    cases hstep
  | start x =>
    rw [ha] at hstep
    cases hstep
    have hx : s.Unstarted x := .inr (.inr ha)
    have hlater (y : Nat)
        (hy : State.Unstarted { s.set x { s.conn x with reads := (s.conn x).reads + 1 } with
          accept := .insert x } y) : x < y := by
      rcases hy with hlt | heq | heq
      · exact hlt
      · cases heq
      · cases heq
    have hold (y : Nat) (hy : x < y) : s.Unstarted y := .inl (by rw [ha]; exact hy)
    refine ⟨h.clean, fun y hy => ?_, fun y hy => ?_, fun y hy => h.alive y (hold y (hlater y hy)),
      fun m hm hy => h.queued m hm (hold m.1 (hlater m.1 hy))⟩
    · cases hy
      exact h.alive x hx
    · have hlt := hlater y hy
      simp only [State.set, Function.update_of_ne (Nat.ne_of_gt hlt)]
      exact h.idle y (hold y hlt)
  | insert x =>
    rw [ha] at hstep
    cases hstep
    refine (h.insertSession (h.inserting x ha)).moveAccept _ (fun _ => by simp) fun y hy => ?_
    rcases hy with hlt | heq | heq
    · exact .inl (by rw [ha]; exact hlt)
    · cases heq
    · cases heq
  | startAccept x =>
    rw [ha] at hstep
    cases hstep
    refine h.moveAccept _ (fun _ => by simp) fun y hy => .inl ?_
    rw [ha]
    show x < y
    rcases hy with hlt | heq | heq
    · exact Nat.lt_of_succ_lt hlt
    · cases heq
      exact Nat.lt_succ_self x
    · cases heq

theorem Inv.dealMsg (h : Inv s) (hstep : dealMsg s = some s') : Inv s' := by
  unfold IoContextPoolServer.dealMsg at hstep
  cases hq : s.msgQue with
  | nil =>
    rw [hq] at hstep
    cases hstep
  | cons m rest =>
    obtain ⟨x, node⟩ := m
    rw [hq] at hstep
    have hx : ¬ s.Unstarted x := h.queued (x, node) (by rw [hq]; exact List.mem_cons_self)
    have hpop : Inv { s with msgQue := rest } :=
      ⟨h.clean, h.inserting, h.idle, h.alive, fun m hm =>
        h.queued m (by rw [hq]; exact List.mem_cons_of_mem _ hm)⟩
    simp only at hstep
    split at hstep <;> cases hstep
    · exact hpop.set hx
    · exact hpop

theorem Inv.step (h : Inv s) (hok : FailsOutsideInsert s a) (hstep : step s a = some s') :
    Inv s' := by
  cases a with
  | accept error =>
    cases ha : s.accept with
    | pending x =>
      simp only [IoContextPoolServer.step, ha, Option.some.injEq] at hstep
      subst hstep
      refine h.moveAccept _ (by cases error <;> simp) fun y hy => ?_
      cases error <;> obtain hlt | heq | heq := hy <;> first
        | exact .inl (by rw [ha]; exact hlt)
        | cases heq
      exact .inr (.inl ha)
    | _ => simp only [IoContextPoolServer.step, ha] at hstep; cases hstep
  | handleAccept => exact h.handleAccept hstep
  | read x chunk =>
    simp only [IoContextPoolServer.step, readChunk, Option.ite_none_right_eq_some,
      Option.map_eq_some_iff] at hstep
    obtain ⟨⟨hr, -⟩, call, -, rfl⟩ := hstep
    have hx := h.started_of_read hr
    have hread := (h.set (c := { s.conn x with
      session := call.session
      reads := (s.conn x).reads - 1 + call.events.count .asyncReadSome }) hx).enqueue hx
      (call.events.filterMap Event.posted)
    split
    · exact hread.clearSession
    · exact hread
  | readError x =>
    simp only [IoContextPoolServer.step, readError, Option.ite_none_right_eq_some,
      Option.some.injEq] at hstep
    obtain ⟨hr, rfl⟩ := hstep
    exact h.handleError (h.started_of_read hr) (hok x rfl)
  | write x error =>
    simp only [IoContextPoolServer.step, handleWrite, Option.ite_none_right_eq_some] at hstep
    obtain ⟨hw, hstep⟩ := hstep
    have hx := h.started_of_write hw
    cases error with
    | true =>
      cases hstep
      exact h.handleError hx (hok x rfl)
    | false =>
      cases hstep
      exact h.set hx
  | dealMsg => exact h.dealMsg hstep

theorem inv_init : Inv system.init :=
  ⟨fun x hx => absurd hx (Finset.notMem_empty x), fun _ hx => (nomatch hx), fun _ _ => ⟨rfl, rfl⟩,
    fun x _ => Finset.notMem_empty x, fun _ hm => absurd hm List.not_mem_nil⟩

/-- A session that fails between its `Start` and its insertion is in the
registry, dead, after the next statement of the accept thread. -/
theorem not_clean_of_fails (hok : ¬ FailsOutsideInsert s a) (hstep : step s a = some s') :
    ∃ s'', step s' .handleAccept = some s'' ∧ ¬ s''.Clean := by
  unfold FailsOutsideInsert at hok
  push Not at hok
  obtain ⟨x, hfails, ha⟩ := hok
  have hdead : s'.accept = .insert x ∧ x ∈ s'.dead := by
    cases a with
    | readError y =>
      cases hfails
      simp only [step, readError, Option.ite_none_right_eq_some, Option.some.injEq] at hstep
      obtain ⟨-, rfl⟩ := hstep
      exact ⟨ha, Finset.mem_insert_self _ _⟩
    | write y error =>
      cases error with
      | false => cases hfails
      | true =>
        cases hfails
        simp only [step, handleWrite, Option.ite_none_right_eq_some] at hstep
        obtain ⟨-, hstep⟩ := hstep
        cases hstep
        exact ⟨ha, Finset.mem_insert_self _ _⟩
    | _ => cases hfails
  refine ⟨{ s' with sessions := insert x s'.sessions, accept := .startAccept x }, ?_, ?_⟩
  · simp only [step, handleAccept, hdead.1]
  · exact fun hclean => hclean x hdead.2 (Finset.mem_insert_self _ _)

/-- No dead session is in the registry as long as none fails between its
`Start` and its insertion; the first one that does gets there. -/
theorem registry_clean_iff (h : system.Reachable FailsOutsideInsert s) :
    s.Clean ∧ ∀ a s', ¬ FailsOutsideInsert s a → step s a = some s' →
      ∃ s'', step s' .handleAccept = some s'' ∧ ¬ s''.Clean :=
  ⟨(h.invariant inv_init fun _ _ _ hs hok hstep => hs.step hok hstep).clean,
    fun _ _ => not_clean_of_fails⟩

/-- A session is reset right after its insertion. -/
theorem registry_clean_reset : ∃ s, system.Reachable FailsOutsideInsert s ∧ 0 ∈ s.dead ∧
    0 ∉ s.sessions := by
  obtain ⟨s, hs, hdead⟩ := reachable_of_execIf system
    (fun s a => decide (FailsOutsideInsert s a)) (fun _ _ hok => of_decide_eq_true hok)
    [.accept false, .handleAccept, .handleAccept, .readError 0]
    (fun s => decide (0 ∈ s.dead)) (by decide +kernel)
  have hmem := of_decide_eq_true hdead
  exact ⟨s, hs, hmem, (registry_clean_iff hs).1 0 hmem⟩

/-- The peer resets the connection while the accept thread is between `Start`
and the insertion. -/
theorem registry_keeps_dead : ¬ ∀ s, system.Reachable anyStep s → s.Clean := by
  intro h
  obtain ⟨s, hs, hdead⟩ := reachable_of_exec system
    [.accept false, .handleAccept, .readError 0, .handleAccept]
    (fun s => decide (0 ∈ s.dead) && decide (0 ∈ s.sessions)) (by decide +kernel)
  rw [Bool.and_eq_true, decide_eq_true_eq, decide_eq_true_eq] at hdead
  exact h s hs 0 hdead.1 hdead.2

end DdsAuto.IoContextPoolServer
