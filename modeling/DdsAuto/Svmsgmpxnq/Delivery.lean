import DdsAuto.Svmsgmpxnq.Server
import Mathlib.Data.List.Nodup

/-!
# Every client gets its own file

`delivers_of_keepsErrno`: in runs where `sig_chld` does not come between an
interrupted `msgrcv` and the test of `errno` with the last child, each private
queue gets the answers to its client's request and no others, the client writes
them up to the first empty one, and somebody can move as long as a client has
not ended.

`served`, `current` and `waiting` below are the clients whose requests have a
child, are in the parent's buffer, and are still in the queue, in the order in
which the requests were sent.
-/

namespace DdsAuto.Svmsgmpxnq

open Function MsgQueue Svmsg CString

variable {C : Type} {su : Setup C} {s s' : State C} {c d : C} {ch ch' : Child} {i j : Nat}

namespace Setup

def request (su : Setup C) (c : C) : List UInt8 := Svmsg.request (su.msqid c) (su.stdin c)

/-- The messages that the client's own request produces. -/
def answer (su : Setup C) (c : C) : List (List UInt8) :=
  Svmsg.answer (su.fopen (su.msqid c)) (su.msqid c) (su.stdin c)

end Setup

structure Delivers [DecidableEq C] (su : Setup C) (s : State C) : Prop where
  arrived : ∀ c, s.arrived (su.msqid c) <+: su.answer c
  output : ∀ c, (s.clients c).output <+: written (su.answer c)
  complete : ∀ c, (s.clients c).pc = .exited → (s.clients c).output = written (su.answer c)
  live : ∀ c, (s.clients c).pc ≠ .exited → ∃ a s', step su s a = some s'

/-- The handler does not find the last child gone while `errno` waits to be tested. -/
def KeepsErrno (s : State C) (a : Label C) : Prop :=
  ∀ inside, a = .sigChld inside → s.parent = .interrupted → ∃ ch ∈ s.children, ch.life = .running

instance [DecidableEq C] (s : State C) (a : Label C) : Decidable (KeepsErrno s a) := by
  unfold KeepsErrno; infer_instance

-- ---------------------------------------------------------------------------
-- The invariant
-- ---------------------------------------------------------------------------

def ParentOk (su : Setup C) (errno : Errno) (current : List C) : Parent → Prop
  | .recv => current = []
  | .interrupted => current = [] ∧ errno = .eintr
  | .fork writeid n ptr => ∃ c, current = [c] ∧ writeid = su.msqid c ∧
      n = (su.request c).length ∧ ptr = pathname (su.msqid c) (su.stdin c)
  | .exited => False

/-- A child has sent what it has not still to send, unless its client is gone. -/
def ChildOk (answer arrived : List (List UInt8)) (pc : ClientPc) (ch : Child) : Prop :=
  match ch.life with
  | .running => arrived ++ ch.todo = answer
  | .exited | .reaped => arrived <+: answer ∧ (arrived = answer ∨ pc = .exited)

def ClientPc.Sent : ClientPc → Prop
  | .msgget | .send => False
  | .recv _ | .rmid | .exited => True

/-- The client has read some messages, none of them empty, and written them;
`rest` is still in its queue. -/
structure HasRead (read : List (List UInt8)) (output : List UInt8) : Prop where
  nonempty : ∀ m ∈ read, m ≠ []
  output : output = read.flatten

def ClientOk (queue : Option Queue) (arrived : List (List UInt8)) (cl : Client) : Prop :=
  match cl.pc with
  | .msgget => cl.output = []
  | .send => cl.output = [] ∧ queue = some []
  | .recv mesg_type => mesg_type = 1 ∧ ∃ read rest, arrived = read ++ rest ∧
      queue = some (rest.map (Msg.mk 1)) ∧ HasRead read cl.output
  | .rmid => queue.isSome ∧ ∃ read rest, arrived = read ++ [] :: rest ∧ HasRead read cl.output
  | .exited => ∃ read rest, arrived = read ++ [] :: rest ∧ HasRead read cl.output

structure Inv (su : Setup C) (served current waiting : List C) (s : State C) : Prop where
  wellKnown : s.wellKnown = waiting.map fun c => ⟨1, su.request c⟩
  parent : ParentOk su s.errno current s.parent
  children : s.children.map Child.writeid = served.map fun c => (su.msqid c : Int)
  nodup : (served ++ current ++ waiting).Nodup
  sent : ∀ c, c ∈ served ++ current ++ waiting ↔ (s.clients c).pc.Sent
  answers : ∀ (i : Nat) (ch : Child) (c : C), s.children[i]? = some ch → ch.writeid = su.msqid c →
    ChildOk (su.answer c) (s.arrived (su.msqid c)) (s.clients c).pc ch
  unserved : ∀ c, c ∉ served → s.arrived (su.msqid c) = []
  clients : ∀ c, ClientOk (s.queues (su.msqid c)) (s.arrived (su.msqid c)) (s.clients c)

section
variable {served current waiting : List C}

theorem msqid_ne (su : Setup C) (h : d ≠ c) : (su.msqid d : Int) ≠ su.msqid c :=
  fun heq => h (su.msqid_injective (Int.ofNat.inj heq))

theorem received_request (su : Setup C) (c : C) :
    Parent.received (su.request c) =
      .fork (su.msqid c) (su.request c).length (pathname (su.msqid c) (su.stdin c)) := by
  rw [Parent.received, Setup.request, parse_request]
  simp only [atoi_decimal (su.msqid_lt c)]

theorem inv_init (su : Setup C) : Inv su [] [] [] (State.init : State C) where
  wellKnown := rfl
  parent := rfl
  children := rfl
  nodup := List.nodup_nil
  sent := fun c => by simp [State.init, ClientPc.Sent]
  answers := fun i ch c h => by simp [State.init] at h
  unserved := fun c _ => rfl
  clients := fun c => rfl

theorem exists_client (h : Inv su served current waiting s) (hi : s.children[i]? = some ch) :
    ∃ c ∈ served, ch.writeid = (su.msqid c : Int) := by
  have hmap : (s.children.map Child.writeid)[i]? = some ch.writeid := by
    rw [List.getElem?_map, hi]
    rfl
  rw [h.children, List.getElem?_map, Option.map_eq_some_iff] at hmap
  obtain ⟨c, hc, hid⟩ := hmap
  exact ⟨c, List.mem_of_getElem? hc, hid.symm⟩

theorem exists_child (h : Inv su served current waiting s) (hc : c ∈ served) :
    ∃ (i : Nat) (ch : Child), s.children[i]? = some ch ∧ ch.writeid = su.msqid c := by
  have hmem : (su.msqid c : Int) ∈ s.children.map Child.writeid := by
    rw [h.children]
    exact List.mem_map_of_mem hc
  obtain ⟨ch, hch, hid⟩ := List.mem_map.mp hmem
  obtain ⟨i, hi⟩ := List.mem_iff_getElem?.mp hch
  exact ⟨i, ch, hi, hid⟩

theorem child_unique (h : Inv su served current waiting s) (hi : s.children[i]? = some ch)
    (hj : s.children[j]? = some ch') (hid : ch.writeid = ch'.writeid) : i = j := by
  have hnodup : (s.children.map Child.writeid).Nodup := by
    rw [h.children]
    refine List.Nodup.map (fun c d heq => su.msqid_injective (Int.ofNat.inj heq)) ?_
    exact (List.nodup_append.mp (List.nodup_append.mp h.nodup).1).1
  have hlt := (List.getElem?_eq_some_iff.mp hi).1
  refine (List.getElem?_inj (by rwa [List.length_map]) hnodup).mp ?_
  rw [List.getElem?_map, List.getElem?_map, hi, hj]
  simp [hid]

theorem sent_of_served (h : Inv su served current waiting s) (hc : c ∈ served) :
    (s.clients c).pc.Sent :=
  (h.sent c).mp (List.mem_append_left _ (List.mem_append_left _ hc))

-- ---------------------------------------------------------------------------
-- What follows
-- ---------------------------------------------------------------------------

theorem arrived_prefix_answer (h : Inv su served current waiting s) (c : C) :
    s.arrived (su.msqid c) <+: su.answer c := by
  by_cases hc : c ∈ served
  · obtain ⟨i, ch, hi, hid⟩ := exists_child h hc
    have hok := h.answers i ch c hi hid
    unfold ChildOk at hok
    split at hok
    · exact ⟨_, hok⟩
    · exact hok.1
    · exact hok.1
  · rw [h.unserved c hc]
    exact List.nil_prefix

/-- Whatever a client has written, it has read. -/
theorem exists_read {queue : Option Queue} {arrived : List (List UInt8)} {cl : Client}
    (h : ClientOk queue arrived cl) : ∃ read, read <+: arrived ∧ HasRead read cl.output := by
  unfold ClientOk at h
  split at h
  · exact ⟨[], List.nil_prefix, by simp, h⟩
  · exact ⟨[], List.nil_prefix, by simp, h.1⟩
  · obtain ⟨-, read, rest, rfl, -, hr⟩ := h
    exact ⟨read, List.prefix_append _ _, hr⟩
  · obtain ⟨-, read, rest, rfl, hr⟩ := h
    exact ⟨read, List.prefix_append _ _, hr⟩
  · obtain ⟨read, rest, rfl, hr⟩ := h
    exact ⟨read, List.prefix_append _ _, hr⟩

theorem output_prefix_written (h : Inv su served current waiting s) (c : C) :
    (s.clients c).output <+: written (su.answer c) := by
  obtain ⟨read, hread, hr⟩ := exists_read (h.clients c)
  rw [hr.output]
  exact flatten_prefix_written hr.nonempty (hread.trans (arrived_prefix_answer h c))

theorem output_complete (h : Inv su served current waiting s) (hpc : (s.clients c).pc = .exited) :
    (s.clients c).output = written (su.answer c) := by
  have hok := h.clients c
  simp only [ClientOk, hpc] at hok
  obtain ⟨read, rest, harr, hr⟩ := hok
  have hpre := arrived_prefix_answer h c
  rw [harr, List.append_cons] at hpre
  rw [hr.output, written_of_prefix hr.nonempty ((List.prefix_append _ _).trans hpre)]

-- ---------------------------------------------------------------------------
-- The parent's steps
-- ---------------------------------------------------------------------------

theorem inv_parent (h : Inv su served current waiting s) (hstep : parent su s = some s') :
    ∃ served current waiting, Inv su served current waiting s' := by
  have hpar := h.parent
  cases hp : s.parent with
  | recv =>
    simp only [hp, ParentOk] at hpar
    subst hpar
    simp only [parent, hp, Option.map_eq_some_iff] at hstep
    obtain ⟨⟨m, rest⟩, hrcv, rfl⟩ := hstep
    cases waiting with
    | nil =>
      rw [h.wellKnown] at hrcv
      cases hrcv
    | cons c waiting =>
      rw [h.wellKnown, List.map_cons, rcv, if_pos rfl] at hrcv
      cases hrcv
      refine ⟨served, [c], waiting, rfl, ?_, h.children, by simpa using h.nodup,
        fun d => by simpa using h.sent d, h.answers, h.unserved, h.clients⟩
      simp only [received_request]
      exact ⟨c, rfl, rfl, rfl, rfl⟩
  | interrupted =>
    simp only [hp, ParentOk] at hpar
    obtain ⟨rfl, herr⟩ := hpar
    simp only [parent, hp, herr, if_true, Option.some.injEq] at hstep
    subst hstep
    exact ⟨served, [], waiting, h.wellKnown, rfl, h.children, h.nodup, h.sent, h.answers,
      h.unserved, h.clients⟩
  | fork writeid n ptr =>
    simp only [hp, ParentOk] at hpar
    obtain ⟨c, rfl, rfl, rfl, rfl⟩ := hpar
    simp only [parent, hp, Option.some.injEq] at hstep
    subst hstep
    have hnew : c ∉ served := by
      have hdisj := (List.nodup_append.mp (List.nodup_append.mp h.nodup).1).2.2
      intro hc
      exact hdisj c hc c List.mem_cons_self rfl
    refine ⟨served ++ [c], [], waiting, h.wellKnown, rfl, by simp [h.children], by simpa using h.nodup,
      fun d => by simpa using h.sent d, fun i ch d hi hid => ?_, fun d hd => ?_, h.clients⟩
    · rw [List.getElem?_append] at hi
      split at hi
      · exact h.answers i ch d hi hid
      · rw [List.getElem?_singleton, Option.ite_none_right_eq_some, Option.some.injEq] at hi
        obtain ⟨-, rfl⟩ := hi
        have hcd : c = d := su.msqid_injective (Int.ofNat.inj hid)
        subst hcd
        simp only [ChildOk, h.unserved c hnew]
        rfl
    · exact h.unserved d fun hmem => hd (List.mem_append_left _ hmem)
  | exited =>
    simp only [hp, ParentOk] at hpar

@[simp] theorem writeid_reap (ch : Child) : ch.reap.writeid = ch.writeid := by
  unfold Child.reap
  split <;> rfl

theorem childOk_reap {answer arrived : List (List UInt8)} (h : ChildOk answer arrived pc ch) :
    ChildOk answer arrived pc ch.reap := by
  unfold Child.reap
  split
  · rename_i hlife
    simp only [ChildOk, hlife] at h
    exact h
  · exact h

/-- With a child left the handler does not touch `errno`. -/
theorem errnoAfter_of_running {children : List Child} (h : ∃ ch ∈ children, ch.life = .running)
    (errno : Errno) :
    errnoAfter (children.map Child.reap) errno = errno := by
  obtain ⟨ch, hmem, hlife⟩ := h
  have hreap : ch.reap = ch := if_neg (by simp [hlife])
  exact if_pos ⟨ch, hreap ▸ List.mem_map_of_mem hmem, hlife⟩

theorem inv_reap (h : Inv su served current waiting s) (hpar : ParentOk su errno current p) :
    Inv su served current waiting { s with
      children := s.children.map Child.reap
      sigchld := false
      parent := p
      errno } := by
  refine ⟨h.wellKnown, hpar, ?_, h.nodup, h.sent, fun i ch c hi hid => ?_, h.unserved, h.clients⟩
  · rw [← h.children, List.map_map]
    exact List.map_congr_left fun ch _ => writeid_reap ch
  · rw [List.getElem?_map, Option.map_eq_some_iff] at hi
    obtain ⟨ch, hi, rfl⟩ := hi
    exact childOk_reap (h.answers i ch c hi (by simpa using hid))

theorem inv_sigChld (h : Inv su served current waiting s) (hstep : sigChld inside s = some s')
    (hok : s.parent = .interrupted → ∃ ch ∈ s.children, ch.life = .running) :
    Inv su served current waiting s' := by
  have hpar := h.parent
  simp only [sigChld, Option.ite_none_right_eq_some] at hstep
  obtain ⟨-, hstep⟩ := hstep
  cases hp : s.parent <;> cases inside <;>
    simp only [hp, Option.some.injEq, Option.ite_none_right_eq_some, reduceCtorEq] at hstep
  case recv.false =>
    subst hstep
    rw [hp] at hpar
    exact inv_reap h hpar
  case recv.true =>
    obtain ⟨-, rfl⟩ := hstep
    rw [hp] at hpar
    exact inv_reap h ⟨hpar, rfl⟩
  case interrupted.false =>
    subst hstep
    rw [hp, ← errnoAfter_of_running (hok hp) s.errno] at hpar
    exact inv_reap h hpar
  case fork.false =>
    subst hstep
    rw [hp] at hpar
    exact inv_reap h hpar

-- ---------------------------------------------------------------------------
-- The children's steps
-- ---------------------------------------------------------------------------

/-- A child that writes to the queue of `c` changes nothing for the others, and
takes over what is known about its client's messages. -/
theorem inv_setChild (ch' : Child) (h : Inv su served current waiting s) (hi : s.children[i]? = some ch)
    (hid : ch.writeid = su.msqid c) (hwriteid : ch'.writeid = ch.writeid)
    {queue : Option Queue} {arrived : List (List UInt8)} (hserved : c ∈ served)
    (hchild : ChildOk (su.answer c) arrived (s.clients c).pc ch')
    (hclient : ClientOk queue arrived (s.clients c)) (sigchld : Bool) :
    Inv su served current waiting { s with
      queues := update s.queues (su.msqid c) queue
      arrived := update s.arrived (su.msqid c) arrived
      children := s.children.set i ch'
      sigchld } := by
  refine ⟨h.wellKnown, h.parent, ?_, h.nodup, h.sent, fun j chj d hj hjd => ?_, fun d hd => ?_,
    fun d => ?_⟩
  · rw [List.map_set, hwriteid, ← h.children]
    refine List.ext_getElem? fun j => ?_
    rw [List.getElem?_set]
    split
    · rename_i hij
      subst hij
      obtain ⟨hlt, hget⟩ := List.getElem?_eq_some_iff.mp hi
      simp [hlt, hget]
    · rfl
  · rw [List.getElem?_set] at hj
    split at hj
    · rename_i hij
      subst hij
      rw [Option.ite_none_right_eq_some, Option.some.injEq] at hj
      obtain ⟨-, rfl⟩ := hj
      have hcd : c = d := by
        rw [hwriteid, hid] at hjd
        exact su.msqid_injective (Int.ofNat.inj hjd)
      subst hcd
      simpa only [update_self] using hchild
    · rename_i hij
      have hne : d ≠ c := by
        rintro rfl
        exact hij (child_unique h hi hj (hid.trans hjd.symm))
      simpa only [update_of_ne (msqid_ne su hne)] using h.answers j chj d hj hjd
  · have hne : d ≠ c := by
      rintro rfl
      exact hd hserved
    simpa only [update_of_ne (msqid_ne su hne)] using h.unserved d hd
  · by_cases hdc : d = c
    · subst hdc
      simpa only [update_self] using hclient
    · simpa only [update_of_ne (msqid_ne su hdc)] using h.clients d

/-- One more message in the client's queue. -/
theorem clientOk_send {q : Queue} {arrived : List (List UInt8)} {cl : Client} (h : ClientOk (some q) arrived cl)
    (hsent : cl.pc.Sent) (m : List UInt8) :
    ClientOk (some (q ++ [⟨1, m⟩])) (arrived ++ [m]) cl := by
  unfold ClientOk at h ⊢
  split at h <;> rename_i hpc <;> simp only [hpc, ClientPc.Sent] at hsent ⊢
  · obtain ⟨htype, read, rest, rfl, hq, hr⟩ := h
    exact ⟨htype, read, rest ++ [m], by simp, by simpa using hq, hr⟩
  · obtain ⟨-, read, rest, rfl, hr⟩ := h
    exact ⟨rfl, read, rest ++ [m], by simp, hr⟩
  · obtain ⟨read, rest, rfl, hr⟩ := h
    exact ⟨read, rest ++ [m], by simp, hr⟩

/-- A queue is there until its client removes it. -/
theorem exited_of_none {arrived : List (List UInt8)} {cl : Client} (h : ClientOk none arrived cl)
    (hsent : cl.pc.Sent) : cl.pc = .exited := by
  unfold ClientOk at h
  split at h <;> rename_i hpc <;> simp only [hpc, ClientPc.Sent] at hsent
  · obtain ⟨-, read, rest, -, hq, -⟩ := h
    cases hq
  · cases h.1
  · exact hpc

theorem inv_child (h : Inv su served current waiting s) (hstep : child su i s = some s') :
    Inv su served current waiting s' := by
  unfold child at hstep
  split at hstep
  · cases hstep
  · rename_i ch hi
    obtain ⟨c, hserved, hid⟩ := exists_client h hi
    have hok := h.answers i ch c hi hid
    have hsent := sent_of_served h hserved
    have hcl := h.clients c
    have hexit (hdone : ChildOk (su.answer c) (s.arrived (su.msqid c)) (s.clients c).pc
        { ch with life := .exited }) : Inv su served current waiting (s.exitChild i ch) := by
      have hinv := inv_setChild { ch with life := .exited } h hi hid rfl hserved hdone hcl true
      simpa only [update_eq_self, State.exitChild] using hinv
    split at hstep
    · rename_i m todo hlife htodo
      simp only [ChildOk, hlife, htodo] at hok
      split at hstep
      · rename_i hq
        cases hstep
        rw [hid] at hq
        rw [hq] at hcl
        exact hexit ⟨⟨_, hok⟩, .inr (exited_of_none hcl hsent)⟩
      · rename_i q hq
        rw [Option.ite_none_right_eq_some, Option.some.injEq] at hstep
        obtain ⟨-, rfl⟩ := hstep
        rw [← hid] at hcl hok
        rw [hq] at hcl
        have hchild : ChildOk (su.answer c) (s.arrived ch.writeid ++ [m]) (s.clients c).pc
            { ch with todo } := by
          simp only [ChildOk, hlife, List.append_assoc]
          exact hok
        have hinv := inv_setChild { ch with todo } h hi hid rfl hserved hchild (clientOk_send hcl hsent m) s.sigchld
        rwa [← hid] at hinv
    · rename_i hlife htodo
      cases hstep
      simp only [ChildOk, hlife, htodo, List.append_nil] at hok
      exact hexit ⟨hok ▸ List.prefix_rfl, .inl hok⟩
    · cases hstep

-- ---------------------------------------------------------------------------
-- The clients' steps
-- ---------------------------------------------------------------------------

variable [DecidableEq C]

/-- A client that has sent goes on, with its own queue. -/
theorem inv_setClient (h : Inv su served current waiting s) (cl : Client) {queue : Option Queue}
    (hsent : cl.pc.Sent ↔ (s.clients c).pc.Sent) (hgone : (s.clients c).pc ≠ .exited)
    (hclient : ClientOk queue (s.arrived (su.msqid c)) cl) :
    Inv su served current waiting
      (({ s with queues := update s.queues (su.msqid c) queue }).setClient c cl) := by
  refine ⟨h.wellKnown, h.parent, h.children, h.nodup, fun d => ?_, fun i ch d hi hid => ?_,
    h.unserved, fun d => ?_⟩
  · rw [h.sent d]
    by_cases hdc : d = c
    · subst hdc
      simp only [State.setClient, update_self]
      exact hsent.symm
    · simp only [State.setClient, update_of_ne hdc]
  · have hok := h.answers i ch d hi hid
    by_cases hdc : d = c
    · subst hdc
      unfold ChildOk at hok ⊢
      split at hok
      · exact hok
      · exact ⟨hok.1, .inl (hok.2.resolve_right hgone)⟩
      · exact ⟨hok.1, .inl (hok.2.resolve_right hgone)⟩
    · simpa only [State.setClient, update_of_ne hdc] using hok
  · by_cases hdc : d = c
    · subst hdc
      simpa only [State.setClient, update_self] using hclient
    · simpa only [State.setClient, update_of_ne hdc, update_of_ne (msqid_ne su hdc)] using h.clients d

theorem inv_send (h : Inv su served current waiting s) (hpc : (s.clients c).pc = .send) :
    Inv su served current (waiting ++ [c])
      (({ s with wellKnown := s.wellKnown ++ [Msg.mk 1 (su.request c)] }).setClient c
        { s.clients c with pc := .recv 1 }) := by
  have hnew : c ∉ served ++ current ++ waiting := by
    rw [h.sent c, hpc]
    exact id
  have hserved : c ∉ served := fun hc => hnew (List.mem_append_left _ (List.mem_append_left _ hc))
  have harr := h.unserved c hserved
  have hcl := h.clients c
  simp only [ClientOk, hpc] at hcl
  refine ⟨by simp [State.setClient, h.wellKnown], h.parent, h.children, ?_, fun d => ?_, fun i ch d hi hid => ?_,
    h.unserved, fun d => ?_⟩
  · rw [← List.append_assoc]
    exact List.Nodup.append h.nodup (List.nodup_singleton c) (by simpa using hnew)
  · rw [← List.append_assoc, List.mem_append, h.sent d, List.mem_singleton]
    by_cases hdc : d = c
    · subst hdc
      simp [State.setClient, ClientPc.Sent]
    · simp only [State.setClient, update_of_ne hdc, hdc, or_false]
  · have hdc : d ≠ c := by
      rintro rfl
      obtain ⟨d', hd', hid'⟩ := exists_client h hi
      have heq : d = d' := su.msqid_injective (Int.ofNat.inj (hid.symm.trans hid'))
      exact hserved (heq ▸ hd')
    simpa only [State.setClient, update_of_ne hdc] using h.answers i ch d hi hid
  · by_cases hdc : d = c
    · subst hdc
      simp only [State.setClient, update_self, ClientOk, harr, hcl.2, true_and]
      exact ⟨[], [], rfl, rfl, by simp, hcl.1⟩
    · simpa only [State.setClient, update_of_ne hdc] using h.clients d

theorem inv_client (h : Inv su served current waiting s) (hstep : client su c s = some s') :
    ∃ waiting, Inv su served current waiting s' := by
  have hcl := h.clients c
  unfold client at hstep
  simp only at hstep
  split at hstep <;> rename_i hpc <;> simp only [ClientOk, hpc] at hcl
  · cases hstep
    refine ⟨waiting, inv_setClient h _ ?_ (by simp [hpc]) ?_⟩
    · simp [hpc, ClientPc.Sent]
    · exact ⟨hcl, rfl⟩
  · simp only [Option.ite_none_right_eq_some, Option.some.injEq] at hstep
    obtain ⟨-, rfl⟩ := hstep
    exact ⟨waiting ++ [c], inv_send h hpc⟩
  · obtain ⟨rfl, read, rest, harr, hq, hr⟩ := hcl
    simp only [hq, Option.map_eq_some_iff] at hstep
    obtain ⟨⟨m, rest'⟩, hrcv, rfl⟩ := hstep
    cases rest with
    | nil => cases hrcv
    | cons d rest =>
      rw [rcv_of_map] at hrcv
      cases hrcv
      refine ⟨waiting, inv_setClient h _ ?_ (by simp [hpc]) ?_⟩
      · rw [hpc]
        split <;> simp [ClientPc.Sent]
      · split
        · rename_i hnil
          simp only at hnil
          subst hnil
          exact ⟨rfl, read, rest, harr, hr⟩
        · rename_i hne
          refine ⟨rfl, read ++ [d], rest, by simpa using harr, rfl, ?_, by simp [hr.output]⟩
          simp only [List.mem_append, List.mem_singleton]
          rintro m (hm | rfl)
          · exact hr.nonempty m hm
          · exact hne
  · cases hstep
    obtain ⟨-, read, rest, harr, hr⟩ := hcl
    refine ⟨waiting, inv_setClient h _ ?_ (by simp [hpc]) ?_⟩
    · simp [hpc, ClientPc.Sent]
    · exact ⟨read, rest, harr, hr⟩
  · cases hstep

theorem exists_inv (hr : (lts su).Reachable KeepsErrno s) :
    ∃ served current waiting, Inv su served current waiting s := by
  induction hr with
  | init => exact ⟨[], [], [], inv_init su⟩
  | @step s s' a _ hok hstep ih =>
    obtain ⟨served, current, waiting, h⟩ := ih
    cases a with
    | parent => exact inv_parent h hstep
    | sigChld inside => exact ⟨served, current, waiting, inv_sigChld h hstep (hok inside rfl)⟩
    | child i => exact ⟨served, current, waiting, inv_child h hstep⟩
    | client c =>
      obtain ⟨waiting, h⟩ := inv_client h hstep
      exact ⟨served, current, waiting, h⟩

-- ---------------------------------------------------------------------------
-- No deadlock
-- ---------------------------------------------------------------------------

/-- The parent moves while there are requests. -/
theorem parent_live (h : Inv su served current waiting s) (hc : c ∈ current ++ waiting) :
    ∃ a s', step su s a = some s' := by
  have hpar := h.parent
  cases hp : s.parent with
  | recv =>
    simp only [hp, ParentOk] at hpar
    subst hpar
    obtain ⟨d, waiting, rfl⟩ := List.exists_cons_of_ne_nil (List.ne_nil_of_mem hc)
    exact ⟨.parent, by simp [step, parent, hp, h.wellKnown, rcv]⟩
  | interrupted => exact ⟨.parent, by simp [step, parent, hp]⟩
  | fork => exact ⟨.parent, by simp [step, parent, hp]⟩
  | exited =>
    simp only [hp, ParentOk] at hpar

/-- With its queue empty, a client that reads has an answer coming. -/
theorem child_live (h : Inv su served current waiting s) (hc : c ∈ served)
    (hpc : (s.clients c).pc = .recv 1) (hq : s.queues (su.msqid c) = some [])
    (hread : ∀ m ∈ s.arrived (su.msqid c), m ≠ []) : ∃ a s', step su s a = some s' := by
  obtain ⟨i, ch, hi, hid⟩ := exists_child h hc
  have hok := h.answers i ch c hi hid
  have hmore : ¬ (s.arrived (su.msqid c) = su.answer c ∨ (s.clients c).pc = .exited) := by
    rintro (hall | hgone)
    · have hmem : [] ∈ su.answer c := nil_mem_answer _ _ _
      rw [← hall] at hmem
      exact hread [] hmem rfl
    · rw [hpc] at hgone
      cases hgone
  rw [← hid] at hq
  unfold ChildOk at hok
  split at hok <;> rename_i hlife
  · refine ⟨.child i, ?_⟩
    cases htodo : ch.todo with
    | nil => simp [step, child, hi, hlife, htodo]
    | cons m todo => simp [step, child, hi, hlife, htodo, hq, su.capacity_pos ch.writeid]
  · exact absurd hok.2 hmore
  · exact absurd hok.2 hmore

theorem live (h : Inv su served current waiting s) (hpc : (s.clients c).pc ≠ .exited) :
    ∃ a s', step su s a = some s' := by
  have hcl := h.clients c
  cases hp : (s.clients c).pc with
  | msgget => exact ⟨.client c, by simp [step, client, hp]⟩
  | send =>
    by_cases hroom : s.wellKnown.length < su.wellKnownCapacity
    · exact ⟨.client c, by simp [step, client, hp, hroom]⟩
    · have hpos := su.wellKnown_pos
      rw [h.wellKnown, List.length_map] at hroom
      obtain ⟨d, hd⟩ := List.exists_mem_of_length_pos (show 0 < waiting.length by omega)
      exact parent_live h (List.mem_append_right _ hd)
  | recv mesg_type =>
    simp only [ClientOk, hp] at hcl
    obtain ⟨rfl, read, rest, harr, hq, hr⟩ := hcl
    cases rest with
    | cons d rest => exact ⟨.client c, by simp [step, client, hp, hq, rcv]⟩
    | nil =>
      have hsent := (h.sent c).mpr (by rw [hp]; trivial)
      rw [List.append_assoc, List.mem_append] at hsent
      rcases hsent with hserved | hwait
      · refine child_live h hserved hp hq ?_
        rw [harr, List.append_nil]
        exact hr.nonempty
      · exact parent_live h hwait
  | rmid => exact ⟨.client c, by simp [step, client, hp]⟩
  | exited => exact absurd hp hpc

theorem delivers_of_keepsErrno (su : Setup C) (h : (lts su).Reachable KeepsErrno s) : Delivers su s := by
  obtain ⟨served, current, waiting, h⟩ := exists_inv h
  exact ⟨arrived_prefix_answer h, output_prefix_written h, fun c => output_complete h, fun c => live h⟩

end

-- ---------------------------------------------------------------------------
-- Runs
-- ---------------------------------------------------------------------------

/-- Clients that ask for files of one letter, and queues of one message. -/
def letters (n : Nat) (h : n < 2147483648) : Setup (Fin n) where
  msqid := Fin.val
  stdin := fun _ => [97, 10]
  fopen := fun _ _ => .ok [98]
  capacity := fun _ => 1
  wellKnownCapacity := 1
  msqid_lt := fun c => Nat.lt_trans c.isLt h
  msqid_injective := fun _ _ => Fin.ext
  capacity_pos := fun _ => Nat.one_pos
  wellKnown_pos := Nat.one_pos

/-- The first half of a conversation: the client's request has a child. -/
def ask (c : Fin n) : List (Label (Fin n)) := [.client c, .client c, .parent, .parent]

/-- The second: the child's two messages, and the two ends. -/
def getAnswer (i : Nat) (c : Fin n) : List (Label (Fin n)) :=
  [.child i, .client c, .child i, .client c, .child i, .client c]

/-- The first client's child ends while the parent waits for a request, and the
server goes on to the second client. -/
theorem delivers_of_keepsErrno_two : ∃ s, (lts (letters 2 (by decide))).Reachable KeepsErrno s ∧
    ((s.clients 1).pc = .exited ∧ (s.clients 1).output = [98]) ∧ Delivers (letters 2 (by decide)) s := by
  obtain ⟨s, hr, hs⟩ := Lts.reachable_of_execIf (lts (letters 2 (by decide)))
    (fun s a => decide (KeepsErrno s a)) (fun _ _ hok => of_decide_eq_true hok)
    (ask 0 ++ getAnswer 0 0 ++ [.sigChld true, .parent] ++ ask 1 ++ getAnswer 1 1)
    (fun s => (s.clients 1).pc = .exited ∧ (s.clients 1).output = [98]) (by decide +kernel)
  exact ⟨s, hr, by simpa using hs, delivers_of_keepsErrno _ hr⟩

/-- Nothing is left that could move but for the last client's own queue. -/
def Stuck (s : State (Fin 3)) : Prop :=
  s.parent = .exited ∧ s.sigchld = false ∧ (∀ ch ∈ s.children, ch.life = .reaped) ∧
    (s.clients 0).pc = .exited ∧ (s.clients 1).pc = .exited ∧ (s.clients 2).pc = .recv 1 ∧
    s.queues 2 = some []

instance (s : State (Fin 3)) : Decidable (Stuck s) := by
  unfold Stuck; infer_instance

theorem no_step_of_stuck {s : State (Fin 3)} (h : Stuck s) (a : Label (Fin 3)) :
    step (letters 3 (by decide)) s a = none := by
  obtain ⟨hparent, hsig, hchildren, h0, h1, h2, hqueue⟩ := h
  cases a with
  | parent => simp [step, parent, hparent]
  | sigChld inside => simp [step, sigChld, hsig]
  | child i =>
    cases hi : s.children[i]? with
    | none => simp [step, child, hi]
    | some ch => simp [step, child, hi, hchildren ch (List.mem_of_getElem? hi)]
  | client c =>
    match c with
    | 0 => simp [step, client, h0]
    | 1 => simp [step, client, h1]
    | 2 => simp [step, client, h2, letters, hqueue, rcv]

/-- The second child ends between the interrupted `msgrcv` and the test of
`errno`. The server ends on `ECHILD`, and the third client waits for ever. -/
theorem handler_ends_server : ∃ s, (lts (letters 3 (by decide))).Reachable Lts.anyStep s ∧
    (s.clients 2).pc = .recv 1 ∧ (∀ a, step (letters 3 (by decide)) s a = none) ∧
    ¬ Delivers (letters 3 (by decide)) s := by
  obtain ⟨s, hr, hs⟩ := Lts.reachable_of_exec (lts (letters 3 (by decide)))
    (ask 0 ++ ask 1 ++ getAnswer 0 0 ++ [.sigChld true] ++ getAnswer 1 1 ++
      [.sigChld false, .parent, .client 2, .client 2])
    (fun s => Stuck s) (by decide +kernel)
  have hstuck : Stuck s := by simpa using hs
  have hnone := no_step_of_stuck hstuck
  refine ⟨s, hr, hstuck.2.2.2.2.2.1, hnone, fun hd => ?_⟩
  obtain ⟨a, s', hstep⟩ := hd.live 2 (by simp [hstuck.2.2.2.2.2.1])
  rw [hnone a] at hstep
  cases hstep

end DdsAuto.Svmsgmpxnq
