import DdsAuto.Svmsgmpxnq.Delivery

/-!
# The file and what the client writes

The child cuts the file into lines and takes `strlen` of each, so a line goes out
as far as its first NUL, and one that starts with a NUL goes out as the empty
message at which the client stops. `fidelity_iff`: the client writes the bytes of
the file exactly where the file has no NUL.

This holds in every run. A server that a signal has ended serves nobody else,
which is to say that it is one that waits for requests and never moves again
(`Parent.revived`).
-/

namespace DdsAuto.Svmsgmpxnq

open Function MsgQueue Svmsg CString

variable {C : Type} {su : Setup C} {s s' : State C} {c : C} {content : List UInt8}

/-- The client of a file with these bytes writes them in order; it leaves its loop
at the last message of the child, and has then written them all. -/
structure Fidelity [DecidableEq C] (su : Setup C) (content : List UInt8) (c : C) (s : State C) :
    Prop where
  output : (s.clients c).output <+: content
  stops : ∀ s', step su s (.client c) = some s' → (s.clients c).pc ≠ .rmid →
    (s'.clients c).pc = .rmid →
      s'.arrived (su.msqid c) = su.answer c ∧ s'.queues (su.msqid c) = some []
  complete : (s.clients c).pc = .rmid ∨ (s.clients c).pc = .exited →
    (s.clients c).output = content

-- ---------------------------------------------------------------------------
-- A server that has ended
-- ---------------------------------------------------------------------------

def Parent.revived : Parent → Parent
  | .exited => .recv
  | p => p

/-- The state in which no signal has done harm yet. -/
def State.revived (s : State C) : State C :=
  { s with parent := s.parent.revived, errno := .eintr }

section
variable {served current waiting : List C}

theorem inv_revived_parent (h : Inv su served current waiting s.revived)
    (hstep : parent su s = some s') : ∃ served current waiting, Inv su served current waiting s'.revived := by
  cases hp : s.parent with
  | interrupted =>
    simp only [parent, hp, Option.some.injEq] at hstep
    subst hstep
    have hpar := h.parent
    simp only [State.revived, hp, Parent.revived, ParentOk] at hpar
    have hrecv : (if s.errno = .eintr then Parent.recv else .exited).revived = .recv := by
      split <;> rfl
    refine ⟨served, current, waiting, h.wellKnown, ?_, h.children, h.nodup, h.sent, h.answers, h.unserved,
      h.clients⟩
    simp only [State.revived, hrecv, ParentOk]
    exact hpar.1
  | recv =>
    simp only [parent, hp, Option.map_eq_some_iff] at hstep
    obtain ⟨m, hm, rfl⟩ := hstep
    refine inv_parent h ?_
    have hpar : s.revived.parent = .recv := by rw [State.revived, hp]; rfl
    have hkeep : (Parent.received m.1.data).revived = Parent.received m.1.data := by
      unfold Parent.received
      split <;> rfl
    simp only [parent, hpar]
    rw [show s.revived.wellKnown = s.wellKnown from rfl, hm, Option.map_some]
    simp only [State.revived, hkeep]
  | fork writeid n ptr =>
    simp only [parent, hp, Option.some.injEq] at hstep
    subst hstep
    refine inv_parent h ?_
    simp only [parent, State.revived, hp, Parent.revived]
  | exited => simp [parent, hp] at hstep

theorem inv_revived_sigChld (h : Inv su served current waiting s.revived)
    (hstep : sigChld inside s = some s') : Inv su served current waiting s'.revived := by
  have hpar := h.parent
  simp only [sigChld, Option.ite_none_right_eq_some] at hstep
  obtain ⟨-, hstep⟩ := hstep
  cases hp : s.parent <;> cases inside <;>
    simp only [hp, Option.some.injEq, Option.ite_none_right_eq_some, reduceCtorEq] at hstep
  case recv.true =>
    obtain ⟨-, rfl⟩ := hstep
    simp only [State.revived, hp, Parent.revived, ParentOk] at hpar
    exact inv_reap (p := .interrupted) h ⟨hpar, rfl⟩
  all_goals
    subst hstep
    simp only [State.revived, hp] at hpar
    exact inv_reap h hpar

end

/-- A child's step does not look at the parent. -/
theorem child_revived (hstep : child su i s = some s') :
    child su i s.revived = some s'.revived := by
  unfold child at hstep ⊢
  simp only [State.revived] at hstep ⊢
  split at hstep
  · cases hstep
  · split at hstep
    · split at hstep
      · cases hstep
        rfl
      · rw [Option.ite_none_right_eq_some, Option.some.injEq] at hstep
        obtain ⟨hroom, rfl⟩ := hstep
        rw [if_pos hroom]
    · cases hstep
      rfl
    · cases hstep

variable [DecidableEq C]

theorem client_revived (hstep : client su c s = some s') :
    client su c s.revived = some s'.revived := by
  unfold client at hstep ⊢
  simp only [State.revived] at hstep ⊢
  split at hstep
  · cases hstep
    rfl
  · rw [Option.ite_none_right_eq_some, Option.some.injEq] at hstep
    obtain ⟨hroom, rfl⟩ := hstep
    exact if_pos hroom
  · split at hstep
    · cases hstep
      rfl
    · rw [Option.map_eq_some_iff] at hstep
      obtain ⟨m, hm, rfl⟩ := hstep
      rw [hm]
      rfl
  · cases hstep
    rfl
  · cases hstep

theorem exists_inv_revived (hr : (lts su).Reachable Lts.anyStep s) :
    ∃ served current waiting, Inv su served current waiting s.revived := by
  induction hr with
  | init => exact ⟨[], [], [], ⟨rfl, rfl, rfl, List.nodup_nil, (inv_init su).sent, (inv_init su).answers,
      fun _ _ => rfl, fun _ => rfl⟩⟩
  | @step s s' a _ _ hstep ih =>
    obtain ⟨served, current, waiting, h⟩ := ih
    cases a with
    | parent => exact inv_revived_parent h hstep
    | sigChld inside => exact ⟨served, current, waiting, inv_revived_sigChld h hstep⟩
    | child i => exact ⟨served, current, waiting, inv_child h (child_revived hstep)⟩
    | client c =>
      obtain ⟨waiting, h⟩ := inv_client h (client_revived hstep)
      exact ⟨served, current, waiting, h⟩

-- ---------------------------------------------------------------------------
-- A file without NULs
-- ---------------------------------------------------------------------------

/-- The first empty message is the one at the end. -/
theorem eq_of_prefix_end {texts read rest : List (List UInt8)} (h : ∀ m ∈ texts, m ≠ [])
    (hpre : read ++ [] :: rest <+: texts ++ [[]]) : read = texts ∧ rest = [] := by
  induction texts generalizing read with
  | nil =>
    have hlen := hpre.length_le
    simp only [List.length_append, List.length_cons, List.length_nil] at hlen
    exact ⟨List.length_eq_zero_iff.mp (by omega), List.length_eq_zero_iff.mp (by omega)⟩
  | cons text texts ih =>
    cases read with
    | nil =>
      obtain ⟨hnil, -⟩ := List.cons_prefix_cons.mp hpre
      exact absurd hnil.symm (h text List.mem_cons_self)
    | cons m read =>
      obtain ⟨rfl, hrest⟩ := List.cons_prefix_cons.mp hpre
      obtain ⟨rfl, hnil⟩ := ih (fun m' hm' => h m' (List.mem_cons_of_mem _ hm')) hrest
      exact ⟨rfl, hnil⟩

omit [DecidableEq C] in
theorem answer_eq_append (hopen : su.fopen (su.msqid c) (pathname (su.msqid c) (su.stdin c)) = .ok content) :
    su.answer c = (lines MAXMESGDATA content).map cstr ++ [[]] := by
  rw [Setup.answer, answer, replies, cstr_of_notMem (zero_notMem_pathname _ _), hopen]

theorem cstr_line_ne_nil (h0 : 0 ∉ content) (hm : m ∈ (lines MAXMESGDATA content).map cstr) : m ≠ [] := by
  obtain ⟨line, hline, rfl⟩ := List.mem_map.mp hm
  have hflat : (lines MAXMESGDATA content).flatten = content := lines_flatten (by decide) content
  rw [cstr_of_notMem fun h => h0 (hflat ▸ List.mem_flatten.mpr ⟨line, hline, h⟩)]
  exact ne_nil_of_mem_lines (by decide) hline

theorem fidelity_of_notMem
    (hopen : su.fopen (su.msqid c) (pathname (su.msqid c) (su.stdin c)) = .ok content) (h0 : 0 ∉ content)
    (hr : (lts su).Reachable Lts.anyStep s) : Fidelity su content c s := by
  obtain ⟨served, current, waiting, h⟩ := exists_inv_revived hr
  have hwritten : written (su.answer c) = content := written_answer hopen h0
  have hcl : ClientOk (s.queues (su.msqid c)) (s.arrived (su.msqid c)) (s.clients c) := h.clients c
  have hpre : s.arrived (su.msqid c) <+: su.answer c := arrived_prefix_answer h c
  refine ⟨hwritten ▸ output_prefix_written h c, fun s' hstep hne hpc => ?_, fun hpc => ?_⟩
  · have hstep : client su c s = some s' := hstep
    unfold client at hstep
    simp only at hstep
    split at hstep <;> rename_i hat <;> simp only [ClientOk, hat] at hcl
    · cases hstep
      simp [State.setClient] at hpc
    · rw [Option.ite_none_right_eq_some, Option.some.injEq] at hstep
      obtain ⟨-, rfl⟩ := hstep
      simp [State.setClient] at hpc
    · obtain ⟨rfl, read, rest, harr, hq, hread⟩ := hcl
      simp only [hq, Option.map_eq_some_iff] at hstep
      obtain ⟨⟨m, rest'⟩, hrcv, rfl⟩ := hstep
      cases rest with
      | nil => cases hrcv
      | cons d rest =>
        rw [rcv_of_map] at hrcv
        cases hrcv
        by_cases hd : d = []
        · subst hd
          rw [harr, answer_eq_append hopen] at hpre
          obtain ⟨rfl, rfl⟩ := eq_of_prefix_end (fun m hm => cstr_line_ne_nil h0 hm) hpre
          refine ⟨?_, by simp [State.setClient]⟩
          rw [answer_eq_append hopen]
          exact harr
        · simp [State.setClient, hd] at hpc
    · exact absurd hat hne
    · cases hstep
  · have hend : ∃ read rest, s.arrived (su.msqid c) = read ++ [] :: rest ∧
        HasRead read (s.clients c).output := by
      rcases hpc with hpc | hpc <;> simp only [ClientOk, hpc] at hcl
      · exact hcl.2
      · exact hcl
    obtain ⟨read, rest, harr, hread⟩ := hend
    rw [harr, List.append_cons] at hpre
    rw [hread.output, ← hwritten, written_of_prefix hread.nonempty ((List.prefix_append _ _).trans hpre)]

-- ---------------------------------------------------------------------------
-- A file with a NUL
-- ---------------------------------------------------------------------------

/-- The client's child has these messages still to send, and the client has
taken all that it was sent. -/
structure Serving (su : Setup C) (c : C) (todo : List (List UInt8)) (output : List UInt8) (s : State C) :
    Prop where
  child : s.children[0]? = some ⟨su.msqid c, todo, .running⟩
  queue : s.queues (su.msqid c) = some []
  client : s.clients c = ⟨.recv 1, output⟩

/-- The child sends its next message and the client takes it. -/
theorem exists_taken (h : Serving su c (m :: todo) output s) :
    ∃ s', (lts su).exec s [.child 0, .client c] = some s' ∧
      (m = [] → s'.clients c = ⟨.rmid, output⟩) ∧ (m ≠ [] → Serving su c todo (output ++ m) s') := by
  have hlen := (List.getElem?_eq_some_iff.mp h.child).1
  have hroom := su.capacity_pos (su.msqid c)
  simp only [Lts.exec, lts, step, child, h.child, h.queue, List.length_nil, if_pos hroom, Option.bind_some,
    client, h.client, update_self, List.nil_append, rcv, if_true, Option.map_some]
  refine ⟨_, rfl, fun hm => ?_, fun hm => ⟨?_, ?_, ?_⟩⟩
  · simp [State.setClient, hm]
  · simp [State.setClient, hlen]
  · simp [State.setClient]
  · simp [State.setClient, hm]

theorem exists_rmid (texts : List (List UInt8)) (h : Serving su c (texts ++ [] :: rest) output s)
    (hne : ∀ m ∈ texts, m ≠ []) :
    ∃ as s', (lts su).exec s as = some s' ∧ s'.clients c = ⟨.rmid, output ++ texts.flatten⟩ := by
  induction texts generalizing s output with
  | nil =>
    obtain ⟨s', hrun, hend, -⟩ := exists_taken h
    exact ⟨_, s', hrun, by simp [hend rfl]⟩
  | cons m texts ih =>
    obtain ⟨s', hrun, -, hmore⟩ := exists_taken h
    obtain ⟨as, t, hrest, hend⟩ := ih (hmore (hne m List.mem_cons_self))
      fun m' hm' => hne m' (List.mem_cons_of_mem _ hm')
    exact ⟨_, t, Lts.exec_append hrun hrest, by rw [hend]; simp⟩

/-- The client's request has a child, and nothing has been sent. -/
theorem exists_serving (su : Setup C) (c : C) :
    ∃ s, (lts su).exec (lts su).init [.client c, .client c, .parent, .parent] = some s ∧
      Serving su c (su.answer c) [] s := by
  have hroom := su.wellKnown_pos
  have hrequest : Parent.received (Svmsg.request (su.msqid c) (su.stdin c)) =
      .fork (su.msqid c) (su.request c).length (pathname (su.msqid c) (su.stdin c)) :=
    received_request su c
  simp only [Lts.exec, lts, State.init, step, client, parent, State.setClient, update_self, Option.bind_some,
    List.length_nil, if_pos hroom, List.nil_append, rcv, if_true, Option.map_some, hrequest]
  exact ⟨_, rfl, rfl, by simp, by simp⟩

/-- There is a run in which the client comes to its end, having written the
messages up to the first empty one. -/
theorem exists_written (su : Setup C) (c : C) : ∃ s, (lts su).Reachable Lts.anyStep s ∧
    s.clients c = ⟨.rmid, written (su.answer c)⟩ := by
  obtain ⟨s, hrun, hserving⟩ := exists_serving su c
  have hmem : [] ∈ su.answer c := nil_mem_answer _ _ _
  obtain ⟨texts, rest, hsplit, hfirst⟩ := List.eq_append_cons_of_mem hmem
  have hne : ∀ m ∈ texts, m ≠ [] := by
    rintro m hm rfl
    exact hfirst hm
  rw [hsplit] at hserving
  obtain ⟨as, s', hrun', hend⟩ := exists_rmid texts hserving hne
  refine ⟨s', (Lts.Reachable.init.exec hrun).exec hrun', ?_⟩
  rw [hend, hsplit, written_append_nil hne, List.nil_append]

omit [DecidableEq C] in
theorem zero_notMem_written
    (hopen : su.fopen (su.msqid c) (pathname (su.msqid c) (su.stdin c)) = .ok content) :
    0 ∉ written (su.answer c) := by
  intro h
  obtain ⟨m, hm, h0⟩ := List.mem_flatten.mp h
  have hmem := (List.takeWhile_prefix _).subset hm
  rw [answer_eq_append hopen] at hmem
  rcases List.mem_append.mp hmem with hline | hend
  · obtain ⟨line, -, rfl⟩ := List.mem_map.mp hline
    exact notMem_cstr line h0
  · rw [List.mem_singleton.mp hend] at h0
    cases h0

/-- Whatever the runs of the other processes, the client of a readable file
gets it as it is exactly if the file has no NUL. -/
theorem fidelity_iff (su : Setup C) (c : C) (content : List UInt8)
    (hopen : su.fopen (su.msqid c) (pathname (su.msqid c) (su.stdin c)) = .ok content) :
    (∀ s, (lts su).Reachable Lts.anyStep s → Fidelity su content c s) ↔ 0 ∉ content := by
  refine ⟨fun h => ?_, fun h0 s hr => fidelity_of_notMem hopen h0 hr⟩
  obtain ⟨s, hr, hend⟩ := exists_written su c
  have hall := (h s hr).complete (.inl (by rw [hend]))
  rw [hend] at hall
  rw [← hall]
  exact zero_notMem_written hopen

/-- One client, and a file with these bytes. -/
def single (content : List UInt8) : Setup (Fin 1) where
  msqid := fun _ => 5
  stdin := fun _ => [97, 10]
  fopen := fun _ _ => .ok content
  capacity := fun _ => 1
  wellKnownCapacity := 1
  msqid_lt := fun _ => by decide
  msqid_injective := fun _ _ _ => Subsingleton.elim _ _
  capacity_pos := fun _ => Nat.one_pos
  wellKnown_pos := Nat.one_pos

/-- Two lines, the second without a newline. -/
theorem fidelity_iff_lines : (0 : UInt8) ∉ [104, 105, 10, 33] ∧
    ∀ s, (lts (single [104, 105, 10, 33])).Reachable Lts.anyStep s →
      Fidelity (single [104, 105, 10, 33]) [104, 105, 10, 33] 0 s :=
  ⟨by decide, (fidelity_iff (single [104, 105, 10, 33]) 0 [104, 105, 10, 33] rfl).mpr (by decide)⟩

/-- Of a line with a NUL only the beginning arrives. -/
theorem nul_cuts_line : ¬ ∀ s, (lts (single [104, 0, 105, 10])).Reachable Lts.anyStep s →
    Fidelity (single [104, 0, 105, 10]) [104, 0, 105, 10] 0 s := by
  intro h
  obtain ⟨s, hr, hend⟩ := Lts.reachable_of_exec (lts (single [104, 0, 105, 10]))
    [.client 0, .client 0, .parent, .parent, .child 0, .client 0, .child 0, .client 0]
    (fun s => (s.clients 0).pc = .rmid ∧ (s.clients 0).output = [104]) (by decide +kernel)
  obtain ⟨hpc, hout⟩ : (s.clients 0).pc = .rmid ∧ (s.clients 0).output = [104] := by simpa using hend
  have hall := (h s hr).complete (.inl hpc)
  rw [hout] at hall
  cases hall

end DdsAuto.Svmsgmpxnq
